import Consensus.Json.Grammar
import Consensus.Json.Printer
import Consensus.Proofs.Json.Scalar

/-!
# What is printed is read back

A value whose numbers are plain digits and whose texts are escaped is the value
that its printed form spells, in whatever it is embedded.  Reading needs two
units of fuel for each printed byte, since no value is printed as nothing.
-/

namespace Consensus.Json

mutual

/-- Numbers are plain digits, and texts and names are escaped. -/
def Plain : Json → Prop
  | .null => True
  | .bool _ => True
  | .number spelling => ∃ n, spelling = decimal n
  | .text body => ∃ bytes, body = escape bytes
  | .array items => PlainItems items
  | .object members => PlainMembers members

/-- All items are plain. -/
def PlainItems : List Json → Prop
  | [] => True
  | item :: items => Plain item ∧ PlainItems items

/-- All members are plain. -/
def PlainMembers : List (Bytes × Json) → Prop
  | [] => True
  | (name, value) :: members =>
      (∃ bytes, name = escape bytes) ∧ Plain value ∧ PlainMembers members

end

theorem plainItems_iff {items : List Json} :
    PlainItems items ↔ ∀ item ∈ items, Plain item := by
  induction items with
  | nil => simp [PlainItems]
  | cons item items ih => simp [PlainItems, ih]

theorem plainMembers_iff {members : List (Bytes × Json)} :
    PlainMembers members ↔
      ∀ m ∈ members, (∃ bytes, m.1 = escape bytes) ∧ Plain m.2 := by
  induction members with
  | nil => simp [PlainMembers]
  | cons m members ih => simp [PlainMembers, ih, and_assoc]

/-! ## The first byte -/

/-- The text starts with a byte that opens a value. -/
def Opens (s : Bytes) : Prop :=
  ∃ b rest, s = b :: rest ∧ isBlankByte b = false ∧ b ≠ 0x5d ∧ b ≠ 0x7d

theorem Opens.append {s : Bytes} (h : Opens s) (rest : Bytes) :
    Opens (s ++ rest) := by
  obtain ⟨b, tail, rfl, hb⟩ := h
  exact ⟨b, tail ++ rest, rfl, hb⟩

theorem Opens.skipBlank {s : Bytes} (h : Opens s) : skipBlank s = s := by
  obtain ⟨b, tail, rfl, hblank, -⟩ := h
  unfold Json.skipBlank
  rw [List.dropWhile_cons_of_neg (by rw [hblank]; exact Bool.false_ne_true)]

theorem Opens.length_pos {s : Bytes} (h : Opens s) : 0 < s.length := by
  obtain ⟨b, tail, rfl, -⟩ := h
  exact Nat.succ_pos _

theorem opens_decimal (n : ℕ) : Opens (decimal n) := by
  cases hdigits : decimal n with
  | nil => exact absurd hdigits (decimal_ne_nil n)
  | cons d digits =>
      have hd : isDigit d = true :=
        isDigit_of_mem_decimal (hdigits ▸ List.mem_cons_self)
      refine ⟨d, digits, rfl, ?_, ?_, ?_⟩
      · by_contra hblank
        simp only [isBlankByte, Bool.not_eq_false, Bool.or_eq_true,
          beq_iff_eq] at hblank
        rcases hblank with ((rfl | rfl) | rfl) | rfl <;> exact absurd hd (by decide)
      · rintro rfl
        exact absurd hd (by decide)
      · rintro rfl
        exact absurd hd (by decide)

theorem Plain.opens {j : Json} (h : Plain j) : Opens (print j) := by
  cases j with
  | null => exact ⟨_, _, rfl, by decide⟩
  | bool value => cases value <;> exact ⟨_, _, rfl, by decide⟩
  | number spelling =>
      obtain ⟨n, rfl⟩ := h
      exact opens_decimal n
  | text body => exact ⟨_, _, rfl, by decide⟩
  | array items => exact ⟨_, _, rfl, by decide⟩
  | object members => exact ⟨_, _, rfl, by decide⟩

/-! ## Reading one step -/

theorem skipBlank_cons {b : UInt8} (h : isBlankByte b = false) (rest : Bytes) :
    skipBlank (b :: rest) = b :: rest :=
  List.dropWhile_cons_of_neg (by rw [h]; exact Bool.false_ne_true)

theorem readValue?_text (fuel : ℕ) (bytes rest : Bytes) :
    readValue? (fuel + 1) (0x22 :: (escape bytes ++ 0x22 :: rest)) =
      some (.text (escape bytes), rest) := by
  rw [readValue?, skipBlank_cons (by decide)]
  change (readBody? (escape bytes ++ 0x22 :: rest)).map _ = _
  rw [readBody?_escape]
  rfl

theorem readValue?_number (fuel n : ℕ) {rest : Bytes} (hends : Ends rest) :
    readValue? (fuel + 1) (decimal n ++ rest) =
      some (.number (decimal n), rest) := by
  have hread := readNumber?_decimal n hends
  have hskip := ((opens_decimal n).append rest).skipBlank
  rw [readValue?, hskip]
  cases hdigits : decimal n with
  | nil => exact absurd hdigits (decimal_ne_nil n)
  | cons d digits =>
      have hd : isDigit d = true :=
        isDigit_of_mem_decimal (hdigits ▸ List.mem_cons_self)
      have hne : ∀ b tail, isDigit b = false →
          d :: digits ++ rest ≠ b :: tail := by
        intro b tail hb h
        rw [(List.cons.inj h).1, hb] at hd
        exact Bool.noConfusion hd
      rw [hdigits] at hread
      split
      · next h => exact absurd h (hne 0x22 _ (by decide))
      · next h => exact absurd h (hne 0x5b _ (by decide))
      · next h => exact absurd h (hne 0x7b _ (by decide))
      · refine (readAtom?.eq_4 _ (fun _ h => ?_) (fun _ h => ?_)
          fun _ h => ?_).trans (congrArg (Option.map _) hread)
        · exact hne 0x6e _ (by decide) h
        · exact hne 0x74 _ (by decide) h
        · exact hne 0x66 _ (by decide) h

theorem readValue?_array (fuel : ℕ) {s : Bytes} (h : Opens s) :
    readValue? (fuel + 1) (0x5b :: s) =
      (readItems? fuel s).map fun (items, rest) => (.array items, rest) := by
  rw [readValue?, skipBlank_cons (by decide)]
  split
  · next hopens => exact absurd (List.cons.inj hopens).1 (by decide)
  · next rest hopens =>
      obtain rfl := (List.cons.inj hopens).2
      rw [h.skipBlank]
      obtain ⟨b, tail, rfl, -, hne, -⟩ := h
      split
      · next hcloses => exact absurd (List.cons.inj hcloses).1 hne
      · rfl
  · next hopens => exact absurd (List.cons.inj hopens).1 (by decide)
  · next hother _ => exact absurd rfl (hother s)

theorem readValue?_object (fuel : ℕ) {s : Bytes} (h : Opens s) :
    readValue? (fuel + 1) (0x7b :: s) =
      (readMembers? fuel s).map fun (members, rest) =>
        (.object members, rest) := by
  rw [readValue?, skipBlank_cons (by decide)]
  split
  · next hopens => exact absurd (List.cons.inj hopens).1 (by decide)
  · next hopens => exact absurd (List.cons.inj hopens).1 (by decide)
  · next rest hopens =>
      obtain rfl := (List.cons.inj hopens).2
      rw [h.skipBlank]
      obtain ⟨b, tail, rfl, -, -, hne⟩ := h
      split
      · next hcloses => exact absurd (List.cons.inj hcloses).1 hne
      · rfl
  · next hother => exact absurd rfl (hother s)

theorem readItems?_last {fuel : ℕ} {s rest : Bytes} {item : Json}
    (h : readValue? fuel s = some (item, 0x5d :: rest)) :
    readItems? (fuel + 1) s = some ([item], rest) := by
  rw [readItems?, h]
  rfl

theorem readItems?_comma {fuel : ℕ} {s rest rest' : Bytes} {item : Json}
    {items : List Json} (h : readValue? fuel s = some (item, 0x2c :: rest))
    (hitems : readItems? fuel rest = some (items, rest')) :
    readItems? (fuel + 1) s = some (item :: items, rest') := by
  rw [readItems?, h]
  change (readItems? fuel rest).bind _ = _
  rw [hitems]
  rfl

theorem readMembers?_last {fuel : ℕ} (bytes : Bytes) {s rest : Bytes} {value : Json}
    (h : readValue? fuel s = some (value, 0x7d :: rest)) :
    readMembers? (fuel + 1)
        (0x22 :: (escape bytes ++ 0x22 :: 0x3a :: s)) =
      some ([(escape bytes, value)], rest) := by
  rw [readMembers?, skipBlank_cons (by decide)]
  change (readBody? (escape bytes ++ 0x22 :: 0x3a :: s)).bind _ = _
  rw [readBody?_escape]
  change (readValue? fuel s).bind _ = _
  rw [h]
  rfl

theorem readMembers?_comma {fuel : ℕ} (bytes : Bytes) {s rest rest' : Bytes}
    {value : Json} {members : List (Bytes × Json)}
    (h : readValue? fuel s = some (value, 0x2c :: rest))
    (hmembers : readMembers? fuel rest = some (members, rest')) :
    readMembers? (fuel + 1)
        (0x22 :: (escape bytes ++ 0x22 :: 0x3a :: s)) =
      some ((escape bytes, value) :: members, rest') := by
  rw [readMembers?, skipBlank_cons (by decide)]
  change (readBody? (escape bytes ++ 0x22 :: 0x3a :: s)).bind _ = _
  rw [readBody?_escape]
  change (readValue? fuel s).bind _ = _
  rw [h]
  change (readMembers? fuel rest).bind _ = _
  rw [hmembers]
  rfl

/-! ## Reading what was printed -/

/-- With enough fuel the value is read off the front of a text. -/
def ReadsBack (j : Json) : Prop :=
  Plain j → ∀ fuel rest, 2 * (print j).length ≤ fuel → Ends rest →
    readValue? fuel (print j ++ rest) = some (j, rest)

/-- The same for the items of an array up to its end. -/
def ItemsReadBack (items : List Json) : Prop :=
  PlainItems items → items ≠ [] → ∀ fuel rest,
    2 * (printItems items).length + 1 ≤ fuel →
      readItems? fuel (printItems items ++ 0x5d :: rest) = some (items, rest)

/-- The same for the members of an object up to its end. -/
def MembersReadBack (members : List (Bytes × Json)) : Prop :=
  PlainMembers members → members ≠ [] → ∀ fuel rest,
    2 * (printMembers members).length + 1 ≤ fuel →
      readMembers? fuel (printMembers members ++ 0x7d :: rest) =
        some (members, rest)

theorem ends_cons {b : UInt8} (h : b = 0x2c ∨ b = 0x5d ∨ b = 0x7d)
    (rest : Bytes) : Ends (b :: rest) := by
  intro b' hb'
  rw [← Option.some.inj hb']
  exact h

theorem opens_printItems {items : List Json} (h : PlainItems items)
    (hne : items ≠ []) : Opens (printItems items) := by
  match items, h with
  | [item], h => exact h.1.opens
  | item :: next :: items, h => exact h.1.opens.append _

theorem opens_printMembers {members : List (Bytes × Json)}
    (hne : members ≠ []) : Opens (printMembers members) := by
  match members with
  | [(name, value)] => exact ⟨_, _, rfl, by decide⟩
  | (name, value) :: next :: members => exact ⟨_, _, rfl, by decide⟩

theorem readsBack_array {items : List Json} (ih : ItemsReadBack items) :
    ReadsBack (.array items) := by
  intro hplain fuel rest hfuel hends
  have hlength : (print (.array items)).length =
      (printItems items).length + 2 := by
    simp [print]
  have hprint : print (.array items) ++ rest =
      0x5b :: (printItems items ++ 0x5d :: rest) := by
    simp [print]
  obtain ⟨fuel, rfl⟩ : ∃ k, fuel = k + 1 := ⟨fuel - 1, by omega⟩
  rw [hprint]
  by_cases hnil : items = []
  · subst hnil
    rfl
  · rw [readValue?_array fuel ((opens_printItems hplain hnil).append _),
      ih hplain hnil fuel rest (by omega)]
    rfl

theorem readsBack_object {members : List (Bytes × Json)}
    (ih : MembersReadBack members) : ReadsBack (.object members) := by
  intro hplain fuel rest hfuel hends
  have hlength : (print (.object members)).length =
      (printMembers members).length + 2 := by
    simp [print]
  have hprint : print (.object members) ++ rest =
      0x7b :: (printMembers members ++ 0x7d :: rest) := by
    simp [print]
  obtain ⟨fuel, rfl⟩ : ∃ k, fuel = k + 1 := ⟨fuel - 1, by omega⟩
  rw [hprint]
  by_cases hnil : members = []
  · subst hnil
    rfl
  · rw [readValue?_object fuel ((opens_printMembers hnil).append _),
      ih hplain hnil fuel rest (by omega)]
    rfl

theorem readsBack_atom {j : Json} (hlength : 2 ≤ 2 * (print j).length)
    (h : Plain j → ∀ fuel rest, Ends rest →
      readValue? (fuel + 1) (print j ++ rest) = some (j, rest)) :
    ReadsBack j := by
  intro hplain fuel rest hfuel hends
  obtain ⟨fuel, rfl⟩ : ∃ k, fuel = k + 1 := ⟨fuel - 1, by omega⟩
  exact h hplain fuel rest hends

/-- The induction follows the printer: a value, the members of an object and
the items of an array. -/
theorem readsBack_all :
    (∀ j, ReadsBack j) ∧ (∀ members, MembersReadBack members) ∧
      ∀ items, ItemsReadBack items := by
  apply print.mutual_induct
  case case1 => exact readsBack_atom (by decide) fun _ _ _ _ => rfl
  case case2 => exact readsBack_atom (by decide) fun _ _ _ _ => rfl
  case case3 => exact readsBack_atom (by decide) fun _ _ _ _ => rfl
  case case4 =>
    rintro spelling ⟨n, rfl⟩
    have hpos := (opens_decimal n).length_pos
    exact readsBack_atom (by change 2 ≤ 2 * (decimal n).length; omega)
      (fun _ fuel _ hends => readValue?_number fuel n hends) ⟨n, rfl⟩
  case case5 =>
    rintro body ⟨bytes, rfl⟩
    refine readsBack_atom (by simp [print]) (fun _ fuel rest _ => ?_)
      ⟨bytes, rfl⟩
    have hread := readValue?_text fuel bytes rest
    simpa [print] using hread
  case case6 => exact fun items ih => readsBack_array ih
  case case7 => exact fun members ih => readsBack_object ih
  case case8 => exact fun _ hne => absurd rfl hne
  case case9 =>
    intro item ih hplain _ fuel rest hfuel
    obtain ⟨fuel, rfl⟩ : ∃ k, fuel = k + 1 := ⟨fuel - 1, by omega⟩
    change 2 * (print item).length + 1 ≤ fuel + 1 at hfuel
    exact readItems?_last
      (ih hplain.1 fuel _ (by omega) (ends_cons (by decide) rest))
  case case10 =>
    intro item items hne ih ihs hplain _ fuel rest hfuel
    have hprint : printItems (item :: items) =
        print item ++ 0x2c :: printItems items :=
      printItems.eq_3 item items hne
    have hlength := congrArg List.length hprint
    simp only [List.length_append, List.length_cons] at hlength
    obtain ⟨fuel, rfl⟩ : ∃ k, fuel = k + 1 := ⟨fuel - 1, by omega⟩
    rw [hprint, List.append_assoc]
    exact readItems?_comma
      (ih hplain.1 fuel _ (by omega) (ends_cons (by decide) _))
      (ihs hplain.2 hne fuel rest (by omega))
  case case11 => exact fun _ hne => absurd rfl hne
  case case12 =>
    rintro name value ih ⟨⟨bytes, rfl⟩, hvalue, -⟩ - fuel rest hfuel
    have hlength : (printMembers [(escape bytes, value)]).length =
        (escape bytes).length + (print value).length + 3 := by
      simp [printMembers]
      omega
    obtain ⟨fuel, rfl⟩ : ∃ k, fuel = k + 1 := ⟨fuel - 1, by omega⟩
    have hread := ih hvalue fuel _ (by omega)
      (ends_cons (b := 0x7d) (by decide) rest)
    simpa [printMembers] using readMembers?_last bytes hread
  case case13 =>
    rintro name value members hne ih ihs ⟨⟨bytes, rfl⟩, hvalue, hrest⟩ - fuel rest
      hfuel
    have hprint : printMembers ((escape bytes, value) :: members) =
        0x22 :: (escape bytes ++ 0x22 :: 0x3a ::
          (print value ++ 0x2c :: printMembers members)) :=
      printMembers.eq_3 _ value members hne
    have hlength := congrArg List.length hprint
    simp only [List.length_append, List.length_cons] at hlength
    obtain ⟨fuel, rfl⟩ : ∃ k, fuel = k + 1 := ⟨fuel - 1, by omega⟩
    have hread := ih hvalue fuel _ (by omega)
      (ends_cons (b := 0x2c) (by decide) (printMembers members ++ 0x7d :: rest))
    have hmembers := ihs hrest hne fuel rest (by omega)
    rw [hprint]
    simpa using readMembers?_comma bytes hread hmembers

/-- What is printed is read back. -/
theorem read?_print {j : Json} (h : Plain j) : read? (print j) = some j := by
  have hread := readsBack_all.1 j h (2 * (print j).length + 2) []
    (Nat.le_add_right _ _) fun _ hb => absurd hb (by simp)
  rw [List.append_nil] at hread
  unfold read?
  rw [hread]
  rfl

end Consensus.Json
