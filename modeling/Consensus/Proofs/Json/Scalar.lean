import Consensus.Json.Scalar
import Consensus.Proofs.Text.Utf8
import Mathlib.Tactic.IntervalCases

/-!
# Numbers and texts are read as they were written

A number in plain digits is read back whatever its size, provided that what
follows it is no part of a number.  A text is read back whatever bytes it
holds, because escaping leaves neither a quote nor a control character, and a
control character is escaped in a form that stands for itself.
-/

namespace Consensus.Json

/-! ## Digits -/

theorem isDigit_digit {n : ℕ} (h : n < 10) :
    isDigit (UInt8.ofNat (0x30 + n)) = true := by
  interval_cases n <;> rfl

theorem toNat_digit {n : ℕ} (h : n < 10) :
    (UInt8.ofNat (0x30 + n)).toNat - 0x30 = n := by
  interval_cases n <;> rfl

theorem digit_ne_zero {n : ℕ} (hpos : 0 < n) (h : n < 10) :
    UInt8.ofNat (0x30 + n) ≠ 0x30 := by
  interval_cases n <;> decide

theorem digitsValue_append_single (digits : Bytes) (d : UInt8) :
    digitsValue (digits ++ [d]) = 10 * digitsValue digits + (d.toNat - 0x30) := by
  unfold digitsValue
  rw [List.foldl_append]
  rfl

theorem digitsValue_decimal (n : ℕ) : digitsValue (decimal n) = n := by
  induction n using decimal.induct with
  | case1 n hsmall =>
      rw [decimal, if_pos hsmall]
      change 10 * 0 + ((UInt8.ofNat (0x30 + n)).toNat - 0x30) = n
      rw [toNat_digit hsmall]
      omega
  | case2 n hlarge ih =>
      rw [decimal, if_neg hlarge, digitsValue_append_single, ih,
        toNat_digit (Nat.mod_lt n (by decide))]
      omega

theorem isDigit_of_mem_decimal {n : ℕ} {d : UInt8} (h : d ∈ decimal n) :
    isDigit d = true := by
  induction n using decimal.induct with
  | case1 n hsmall =>
      rw [decimal, if_pos hsmall] at h
      rw [List.mem_singleton.mp h]
      exact isDigit_digit hsmall
  | case2 n hlarge ih =>
      rw [decimal, if_neg hlarge, List.mem_append, List.mem_singleton] at h
      rcases h with h | rfl
      · exact ih h
      · exact isDigit_digit (Nat.mod_lt n (by decide))

/-- Only the number zero starts with the digit zero. -/
theorem decimal_eq_cons {n : ℕ} (hpos : 0 < n) :
    ∃ d digits, decimal n = d :: digits ∧ d ≠ 0x30 := by
  induction n using decimal.induct with
  | case1 n hsmall =>
      rw [decimal, if_pos hsmall]
      exact ⟨_, [], rfl, digit_ne_zero hpos hsmall⟩
  | case2 n hlarge ih =>
      obtain ⟨d, digits, hdigits, hne⟩ := ih (by omega)
      rw [decimal, if_neg hlarge, hdigits]
      exact ⟨d, _, rfl, hne⟩

theorem decimal_ne_nil (n : ℕ) : decimal n ≠ [] := by
  rcases Nat.eq_zero_or_pos n with rfl | hpos
  · rw [decimal]
    exact List.cons_ne_nil _ _
  · obtain ⟨d, digits, hdigits, -⟩ := decimal_eq_cons hpos
    rw [hdigits]
    exact List.cons_ne_nil _ _

theorem nat?_ofNat (bound n : ℕ) :
    nat? bound (ofNat n) = if n < bound then some n else none := by
  have hall : (decimal n).all isDigit = true :=
    List.all_eq_true.mpr fun d hd => isDigit_of_mem_decimal hd
  unfold nat? ofNat
  simp only [hall, digitsValue_decimal, Bool.true_and, decide_eq_true_eq]

/-! ## Numbers -/

/-- What may follow a value: nothing, a comma or a closing mark. -/
def Ends (rest : Bytes) : Prop :=
  ∀ b ∈ rest.head?, b = 0x2c ∨ b = 0x5d ∨ b = 0x7d

theorem readDigits?_append {digits rest : Bytes} (hne : digits ≠ [])
    (hdigits : ∀ d ∈ digits, isDigit d = true) (hends : Ends rest) :
    readDigits? (digits ++ rest) = some (digits, rest) := by
  have htake : rest.takeWhile isDigit = [] := by
    cases rest with
    | nil => rfl
    | cons b rest => rcases hends b rfl with rfl | rfl | rfl <;> rfl
  have hdrop : rest.dropWhile isDigit = rest := by
    cases rest with
    | nil => rfl
    | cons b rest => rcases hends b rfl with rfl | rfl | rfl <;> rfl
  unfold readDigits?
  rw [List.takeWhile_append_of_pos hdigits, List.dropWhile_append_of_pos hdigits,
    htake, hdrop, List.append_nil]
  simp [hne]

theorem readWhole?_decimal (n : ℕ) {rest : Bytes} (hends : Ends rest) :
    readWhole? (decimal n ++ rest) = some (decimal n, rest) := by
  rcases Nat.eq_zero_or_pos n with rfl | hpos
  · rw [decimal]
    rfl
  · have hread := readDigits?_append (decimal_ne_nil n)
      (fun d hd => isDigit_of_mem_decimal hd) hends
    obtain ⟨d, digits, hdigits, hne⟩ := decimal_eq_cons hpos
    rw [hdigits] at hread ⊢
    rw [← hread]
    exact readWhole?.eq_2 _ fun rest' h => hne (List.cons.inj h).1

theorem readNumber?_decimal (n : ℕ) {rest : Bytes} (hends : Ends rest) :
    readNumber? (decimal n ++ rest) = some (decimal n, rest) := by
  have hwhole := readWhole?_decimal n hends
  have hsign : ∀ tail, decimal n ++ rest ≠ 0x2d :: tail := by
    intro tail htail
    cases hdigits : decimal n with
    | nil => exact decimal_ne_nil n hdigits
    | cons d digits =>
        have hd : isDigit d = true :=
          isDigit_of_mem_decimal (hdigits ▸ List.mem_cons_self)
        rw [hdigits] at htail
        rw [(List.cons.inj htail).1] at hd
        exact absurd hd (by decide)
  have hrest : readFraction? rest = some ([], rest) ∧
      readExponent? rest = some ([], rest) := by
    cases rest with
    | nil => exact ⟨rfl, rfl⟩
    | cons b rest => rcases hends b rfl with rfl | rfl | rfl <;> exact ⟨rfl, rfl⟩
  unfold readNumber?
  split
  rename_i sign s hcase
  split at hcase
  · next tail htail => exact absurd htail (hsign tail)
  · obtain ⟨rfl, rfl⟩ := Prod.mk.inj hcase
    simp [hwhole, hrest.1, hrest.2]

/-! ## Texts -/

theorem hexDigit?_hexDigit {n : ℕ} (h : n < 16) :
    hexDigit? (hexDigit n) = some n := by
  interval_cases n <;> rfl

/-- How a byte may stand in the body of a text. -/
inductive Escaped : UInt8 → Bytes → Prop
  | simple {b e : UInt8} (hescape : simpleEscape? e = some b) (hne : e ≠ 0x75) :
      Escaped b [0x5c, e]
  | control {b : UInt8} (hlt : b.toNat < 0x20) :
      Escaped b [0x5c, 0x75, 0x30, 0x30, hexDigit (b.toNat / 16),
        hexDigit (b.toNat % 16)]
  | plain {b : UInt8} (hquote : b ≠ 0x22) (hslash : b ≠ 0x5c)
      (hle : ¬ b < 0x20) : Escaped b [b]

theorem escaped_escapeByte (b : UInt8) : Escaped b (escapeByte b) := by
  unfold escapeByte
  split
  · exact .simple rfl (by decide)
  · exact .simple rfl (by decide)
  · exact .simple rfl (by decide)
  · exact .simple rfl (by decide)
  · exact .simple rfl (by decide)
  · exact .simple rfl (by decide)
  · exact .simple rfl (by decide)
  · next hquote hslash _ _ _ _ _ =>
    split
    · next hlt => exact .control hlt
    · next hle => exact .plain hquote hslash hle

theorem Escaped.readBody? {b : UInt8} {form : Bytes} (h : Escaped b form)
    (rest : Bytes) :
    readBody? (form ++ rest) =
      (Json.readBody? rest).map fun (body, rest) => (form ++ body, rest) := by
  cases h with
  | simple hescape hne =>
      refine (readBody?.eq_4 _ rest fun _ _ _ _ _ h => absurd h hne).trans ?_
      rw [if_pos (by rw [hescape]; rfl)]
      rfl
  | control hlt =>
      refine (readBody?.eq_3 _ _ _ _ rest).trans ?_
      rw [hexDigit?_hexDigit (by omega), hexDigit?_hexDigit (by omega)]
      rfl
  | plain hquote hslash hle =>
      refine (readBody?.eq_5 b rest hquote (fun _ _ _ _ _ h => absurd h hslash)
        fun _ _ h => absurd h hslash).trans ?_
      rw [if_neg (by simp [hle, hslash])]
      rfl

/-- What is escaped ends at its closing quote and not before. -/
theorem readBody?_escape (bytes rest : Bytes) :
    readBody? (escape bytes ++ 0x22 :: rest) = some (escape bytes, rest) := by
  induction bytes with
  | nil => rfl
  | cons b bytes ih =>
      have hsplit : escape (b :: bytes) = escapeByte b ++ escape bytes := rfl
      rw [hsplit, List.append_assoc, (escaped_escapeByte b).readBody?, ih]
      rfl

/-- An escaped character that is no surrogate stands for itself, whatever
follows it. -/
theorem unescape?_unit {a b c d : UInt8} {unit : ℕ}
    (hunit : hexWord? a b c d = some unit) (hlt : unit < 0xd800) (rest : Bytes) :
    unescape? (0x5c :: 0x75 :: a :: b :: c :: d :: rest) =
      (unescape? rest).map (encodePoint unit ++ ·) := by
  have hhigh : isHighSurrogate unit = false := by
    simp [isHighSurrogate]
    omega
  have hlow : isLowSurrogate unit = false := by
    simp [isLowSurrogate]
    omega
  by_cases hpair : ∃ e f g h rest', rest = 0x5c :: 0x75 :: e :: f :: g :: h :: rest'
  · obtain ⟨e, f, g, h, rest', rfl⟩ := hpair
    rw [unescape?.eq_2, hunit]
    simp only [Option.bind_eq_bind, Option.bind_some, hhigh, hlow,
      Bool.false_eq_true, if_false]
    cases unescape? (0x5c :: 0x75 :: e :: f :: g :: h :: rest') <;> rfl
  · rw [unescape?.eq_3 _ _ _ _ _ fun e f g h rest' hrest =>
      hpair ⟨e, f, g, h, rest', hrest⟩, hunit]
    simp only [Option.bind_eq_bind, Option.bind_some, hhigh, hlow, Bool.or_self,
      Bool.false_eq_true, if_false]
    cases unescape? rest <;> rfl

theorem encodePoint_of_lt {b : UInt8} (h : b.toNat < 0x20) :
    encodePoint b.toNat = [b] := by
  have hcases : ∀ n < 0x20, encodePoint n = [UInt8.ofNat n] := by decide
  rw [hcases b.toNat h, UInt8.ofNat_toNat]

theorem Escaped.unescape? {b : UInt8} {form : Bytes} (h : Escaped b form)
    (rest : Bytes) :
    unescape? (form ++ rest) = (Json.unescape? rest).map (b :: ·) := by
  cases h with
  | simple hescape hne =>
      refine (unescape?.eq_4 _ rest (fun _ _ _ _ _ _ _ _ _ h => absurd h hne)
        fun _ _ _ _ _ h => absurd h hne).trans ?_
      rw [hescape]
      cases Json.unescape? rest <;> rfl
  | control hlt =>
      have hunit : hexWord? 0x30 0x30 (hexDigit (b.toNat / 16))
          (hexDigit (b.toNat % 16)) = some b.toNat := by
        unfold hexWord?
        rw [hexDigit?_hexDigit (by omega), hexDigit?_hexDigit (by omega)]
        change some (((0 * 16 + 0) * 16 + b.toNat / 16) * 16 + b.toNat % 16) = _
        congr 1
        omega
      have hread := unescape?_unit hunit (by omega) rest
      rw [encodePoint_of_lt hlt] at hread
      exact hread
  | plain hquote hslash hle =>
      refine (unescape?.eq_5 b rest (fun _ _ _ _ _ _ _ _ _ h => absurd h hslash)
        (fun _ _ _ _ _ h => absurd h hslash)
        fun _ _ h => absurd h hslash).trans ?_
      rw [if_neg (by simp [hslash])]

/-- Escaping loses nothing. -/
theorem unescape?_escape (bytes : Bytes) :
    unescape? (escape bytes) = some bytes := by
  induction bytes with
  | nil => rfl
  | cons b bytes ih =>
      have hsplit : escape (b :: bytes) = escapeByte b ++ escape bytes := rfl
      rw [hsplit, (escaped_escapeByte b).unescape?, ih]
      rfl

theorem bodyText?_escape (text : String) :
    bodyText? (escape (Utf8.encode text)) = some text := by
  unfold bodyText?
  rw [unescape?_escape]
  exact Utf8.decode?_encode text

end Consensus.Json
