import Consensus.Proofs.Json.RoundTrip

/-!
# What follows a value makes no difference

A value is read off the front of a text up to its last byte, and then nothing that comes
after it is looked at.  Only a number is read as far as it goes: it has ended once there
is something left of the text.

So no object begins with another one, and a text that holds only part of an object, or
an object and something else, holds no value at all.
-/

namespace Consensus.Json

variable {s body name spelling digits rest : Bytes}

/-- What a text begins with is not changed by what follows it. -/
theorem append_ne_cons {mark : UInt8} (hne : s ≠ []) (hother : ∀ tail, s ≠ mark :: tail)
    (more tail : Bytes) : s ++ more ≠ mark :: tail := by
  intro hmark
  obtain ⟨b, s, rfl⟩ := List.exists_cons_of_ne_nil hne
  obtain ⟨rfl, -⟩ := List.cons.inj hmark
  exact hother s rfl

theorem skipBlank_append {b : UInt8} (h : skipBlank s = b :: rest) (more : Bytes) :
    skipBlank (s ++ more) = b :: (rest ++ more) := by
  unfold skipBlank at h ⊢
  rw [List.dropWhile_append, h]
  rfl

/-! ## Texts -/

theorem readBody?_append (h : readBody? s = some (body, rest)) (more : Bytes) :
    readBody? (s ++ more) = some (body, rest ++ more) := by
  induction s using readBody?.induct generalizing body with
  | case1 => exact absurd h (by simp [readBody?])
  | case2 tail =>
      rw [readBody?] at h
      obtain ⟨rfl, rfl⟩ := Prod.mk.inj (Option.some.inj h)
      rfl
  | case3 a b c d tail hhex ih =>
      rw [readBody?, if_pos hhex] at h
      obtain ⟨⟨body', rest'⟩, hread, hpair⟩ := Option.map_eq_some_iff.mp h
      obtain ⟨rfl, rfl⟩ := Prod.mk.inj hpair
      refine (readBody?.eq_3 a b c d (tail ++ more)).trans ?_
      rw [if_pos hhex, ih hread]
      rfl
  | case4 a b c d tail hhex =>
      rw [readBody?, if_neg hhex] at h
      exact absurd h (by simp)
  | case5 e tail hlong hsimple ih =>
      rw [readBody?.eq_4 e tail hlong, if_pos hsimple] at h
      obtain ⟨⟨body', rest'⟩, hread, hpair⟩ := Option.map_eq_some_iff.mp h
      obtain ⟨rfl, rfl⟩ := Prod.mk.inj hpair
      have hshort : e ≠ 0x75 := by
        rintro rfl
        exact absurd hsimple (by decide)
      refine (readBody?.eq_4 e (tail ++ more) fun _ _ _ _ _ he => absurd he hshort).trans ?_
      rw [if_pos hsimple, ih hread]
      rfl
  | case6 e tail hlong hsimple =>
      rw [readBody?.eq_4 e tail hlong, if_neg hsimple] at h
      exact absurd h (by simp)
  | case7 b tail hquote hlong hescape hplain =>
      rw [readBody?.eq_5 b tail hquote hlong hescape, if_pos hplain] at h
      exact absurd h (by simp)
  | case8 b tail hquote hlong hescape hplain ih =>
      rw [readBody?.eq_5 b tail hquote hlong hescape, if_neg hplain] at h
      obtain ⟨⟨body', rest'⟩, hread, hpair⟩ := Option.map_eq_some_iff.mp h
      obtain ⟨rfl, rfl⟩ := Prod.mk.inj hpair
      have hslash : b ≠ 0x5c := by
        rintro rfl
        exact hplain (by decide)
      refine (readBody?.eq_5 b (tail ++ more) hquote
        (fun _ _ _ _ _ hb => absurd hb hslash) fun _ _ hb => absurd hb hslash).trans ?_
      rw [if_neg hplain, ih hread]
      rfl

/-! ## Numbers -/

theorem readDigits?_of_append (h : readDigits? s = some (digits, rest)) (hne : rest ≠ [])
    (more : Bytes) : readDigits? (s ++ more) = some (digits, rest ++ more) := by
  unfold readDigits? at h ⊢
  dsimp only at h ⊢
  split at h
  · exact absurd h (by simp)
  · next hdigits =>
    obtain ⟨rfl, rfl⟩ := Prod.mk.inj (Option.some.inj h)
    have htake : (s ++ more).takeWhile isDigit = s.takeWhile isDigit := by
      rw [List.takeWhile_append, if_neg]
      intro hall
      have hsplit := List.takeWhile_append_dropWhile (p := isDigit) (l := s)
      have hlength := congrArg List.length hsplit
      rw [List.length_append, hall] at hlength
      exact hne (List.length_eq_zero_iff.mp (by omega))
    have hdrop : (s ++ more).dropWhile isDigit = s.dropWhile isDigit ++ more := by
      rw [List.dropWhile_append, if_neg]
      rwa [List.isEmpty_iff]
    rw [htake, hdrop, if_neg hdigits]

theorem readWhole?_append (h : readWhole? s = some (digits, rest)) (hne : rest ≠ [])
    (more : Bytes) : readWhole? (s ++ more) = some (digits, rest ++ more) := by
  by_cases hzero : ∃ tail, s = 0x30 :: tail
  · obtain ⟨tail, rfl⟩ := hzero
    obtain ⟨rfl, rfl⟩ := Prod.mk.inj (Option.some.inj h)
    rfl
  · have hother : ∀ tail, s ≠ 0x30 :: tail := fun tail hs => hzero ⟨tail, hs⟩
    have hsome : s ≠ [] := by
      rintro rfl
      cases h
    rw [readWhole?.eq_2 s hother] at h
    rw [readWhole?.eq_2 _ (append_ne_cons hsome hother more)]
    exact readDigits?_of_append h hne more

theorem readFraction?_append (h : readFraction? s = some (digits, rest)) (hne : rest ≠ [])
    (more : Bytes) : readFraction? (s ++ more) = some (digits, rest ++ more) := by
  by_cases hpoint : ∃ tail, s = 0x2e :: tail
  · obtain ⟨tail, rfl⟩ := hpoint
    obtain ⟨⟨digits', rest'⟩, hread, hpair⟩ := Option.map_eq_some_iff.mp h
    obtain ⟨rfl, rfl⟩ := Prod.mk.inj hpair
    refine (readFraction?.eq_1 (tail ++ more)).trans ?_
    rw [readDigits?_of_append hread hne]
    rfl
  · have hother : ∀ tail, s ≠ 0x2e :: tail := fun tail hs => hpoint ⟨tail, hs⟩
    rw [readFraction?.eq_2 s hother] at h
    obtain ⟨rfl, rfl⟩ := Prod.mk.inj (Option.some.inj h)
    exact readFraction?.eq_2 _ (append_ne_cons hne hother more)

theorem readExponent?_append (h : readExponent? s = some (digits, rest)) (hne : rest ≠ [])
    (more : Bytes) : readExponent? (s ++ more) = some (digits, rest ++ more) := by
  cases s with
  | nil =>
      obtain ⟨-, rfl⟩ := Prod.mk.inj (Option.some.inj h)
      exact absurd rfl hne
  | cons mark tail =>
      by_cases hmark : (mark == 0x65 || mark == 0x45) = true
      · unfold readExponent? at h
        dsimp only at h
        rw [if_pos hmark] at h
        split at h
        all_goals
          simp only [Option.map_eq_some_iff, Prod.exists, Prod.mk.injEq] at h
          obtain ⟨digits', rest', hread, rfl, rfl⟩ := h
          have hmore := readDigits?_of_append hread hne more
        · refine (readExponent?.eq_1 mark _).trans ?_
          rw [if_pos hmark]
          exact congrArg (Option.map _) hmore
        · refine (readExponent?.eq_2 mark _).trans ?_
          rw [if_pos hmark]
          exact congrArg (Option.map _) hmore
        · next hplus hminus =>
          have hsome : tail ≠ [] := by
            rintro rfl
            cases hread
          refine (readExponent?.eq_3 mark _ (append_ne_cons hsome hplus more)
            (append_ne_cons hsome hminus more)).trans ?_
          rw [if_pos hmark]
          exact congrArg (Option.map _) hmore
      · unfold readExponent? at h ⊢
        dsimp only [List.cons_append] at h ⊢
        rw [if_neg hmark] at h ⊢
        obtain ⟨rfl, rfl⟩ := Prod.mk.inj (Option.some.inj h)
        rfl

theorem readUnsigned_append (sign : Bytes)
    (h : (do
      let (whole, s) ← readWhole? s
      let (fraction, s) ← readFraction? s
      let (exponent, s) ← readExponent? s
      return (sign ++ whole ++ fraction ++ exponent, s)) = some (spelling, rest))
    (hne : rest ≠ []) (more : Bytes) :
    (do
      let (whole, s) ← readWhole? (s ++ more)
      let (fraction, s) ← readFraction? s
      let (exponent, s) ← readExponent? s
      return (sign ++ whole ++ fraction ++ exponent, s)) =
        some (spelling, rest ++ more) := by
  simp only [Option.bind_eq_bind, Option.bind_eq_some_iff, Prod.exists] at h ⊢
  obtain ⟨whole, s₁, hwhole, fraction, s₂, hfraction, exponent, s₃, hexponent, hpair⟩ := h
  obtain ⟨rfl, rfl⟩ := Prod.mk.inj (Option.some.inj hpair)
  have hne₂ : s₂ ≠ [] := by
    rintro rfl
    obtain ⟨-, rfl⟩ := Prod.mk.inj (Option.some.inj hexponent)
    exact hne rfl
  have hne₁ : s₁ ≠ [] := by
    rintro rfl
    obtain ⟨-, rfl⟩ := Prod.mk.inj (Option.some.inj hfraction)
    exact hne₂ rfl
  exact ⟨whole, _, readWhole?_append hwhole hne₁ more,
    fraction, _, readFraction?_append hfraction hne₂ more,
    exponent, _, readExponent?_append hexponent hne more, rfl⟩

/-- A number has ended if something is left. -/
theorem readNumber?_append (h : readNumber? s = some (spelling, rest)) (hne : rest ≠ [])
    (more : Bytes) : readNumber? (s ++ more) = some (spelling, rest ++ more) := by
  by_cases hsign : ∃ tail, s = 0x2d :: tail
  · obtain ⟨tail, rfl⟩ := hsign
    rw [readNumber?] at h
    exact (readNumber?.eq_1 (tail ++ more)).trans (readUnsigned_append [0x2d] h hne more)
  · have hother : ∀ tail, s ≠ 0x2d :: tail := fun tail hs => hsign ⟨tail, hs⟩
    have hsome : s ≠ [] := by
      rintro rfl
      cases h
    rw [readNumber?.eq_2 s hother] at h
    exact (readNumber?.eq_2 _ (append_ne_cons hsome hother more)).trans
      (readUnsigned_append [] h hne more)

/-- A number begins with its sign or a digit. -/
theorem exists_cons_of_readNumber? (h : readNumber? s = some (spelling, rest)) :
    ∃ b tail, s = b :: tail ∧ (b = 0x2d ∨ isDigit b = true) := by
  cases s with
  | nil => cases h
  | cons b tail =>
      refine ⟨b, tail, rfl, ?_⟩
      by_contra hother
      obtain ⟨hsign, hdigit⟩ := not_or.mp hother
      have hzero : b ≠ 0x30 := by
        rintro rfl
        exact hdigit rfl
      have hwhole : readWhole? (b :: tail) = none := by
        rw [readWhole?.eq_2 _ fun _ hcons => hzero (List.cons.inj hcons).1]
        unfold readDigits?
        rw [List.takeWhile_cons_of_neg hdigit]
        rfl
      rw [readNumber?.eq_2 _ fun _ hminus => hsign (List.cons.inj hminus).1, hwhole] at h
      cases h

/-! ## Values -/

variable {fuel : ℕ} {j : Json}

/-- Something is left, or the value is no number. -/
def Ended (j : Json) (rest : Bytes) : Prop :=
  rest ≠ [] ∨ ∀ spelling, j ≠ .number spelling

theorem readAtom?_append (h : readAtom? s = some (j, rest)) (hended : Ended j rest)
    (more : Bytes) : readAtom? (s ++ more) = some (j, rest ++ more) := by
  unfold readAtom? at h
  split at h
  · obtain ⟨rfl, rfl⟩ := Prod.mk.inj (Option.some.inj h)
    rfl
  · obtain ⟨rfl, rfl⟩ := Prod.mk.inj (Option.some.inj h)
    rfl
  · obtain ⟨rfl, rfl⟩ := Prod.mk.inj (Option.some.inj h)
    rfl
  · simp only [Option.map_eq_some_iff, Prod.exists, Prod.mk.injEq] at h
    obtain ⟨spelling, rest', hread, rfl, rfl⟩ := h
    have hne := hended.resolve_right fun hno => hno spelling rfl
    have hmore := readNumber?_append hread hne more
    obtain ⟨b, tail, rfl, hb⟩ := exists_cons_of_readNumber? hread
    have hother : ∀ c rest, c = 0x6e ∨ c = 0x74 ∨ c = 0x66 →
        b :: tail ++ more ≠ c :: rest := by
      rintro c rest hc hcons
      obtain rfl := (List.cons.inj hcons).1
      rcases hc with rfl | rfl | rfl <;> exact absurd hb (by decide)
    rw [readAtom?.eq_4, hmore]
    · rfl
    · exact fun rest => hother 0x6e _ (by decide)
    · exact fun rest => hother 0x74 _ (by decide)
    · exact fun rest => hother 0x66 _ (by decide)

/-- There is no value in blanks. -/
theorem skipBlank_ne_nil (h : readValue? fuel s = some (j, rest)) : skipBlank s ≠ [] := by
  intro hnil
  cases fuel with
  | zero => cases h
  | succ fuel =>
      rw [readValue?, hnil] at h
      cases h

theorem skipBlank_ne_nil_of_items {items : List Json}
    (h : readItems? fuel s = some (items, rest)) : skipBlank s ≠ [] := by
  cases fuel with
  | zero => cases h
  | succ fuel =>
      rw [readItems?] at h
      simp only [Option.bind_eq_bind, Option.bind_eq_some_iff, Prod.exists] at h
      obtain ⟨item, s', hvalue, -⟩ := h
      exact skipBlank_ne_nil hvalue

theorem skipBlank_ne_nil_of_members {members : List (Bytes × Json)}
    (h : readMembers? fuel s = some (members, rest)) : skipBlank s ≠ [] := by
  intro hnil
  cases fuel with
  | zero => cases h
  | succ fuel =>
      rw [readMembers?, hnil] at h
      cases h

theorem skipBlank_append_ne {mark : UInt8} (hne : skipBlank s ≠ [])
    (hother : ∀ rest, skipBlank s ≠ mark :: rest) (more rest : Bytes) :
    skipBlank (s ++ more) ≠ mark :: rest := by
  obtain ⟨b, tail, hskip⟩ := List.exists_cons_of_ne_nil hne
  rw [skipBlank_append hskip, ← List.cons_append, ← hskip]
  exact append_ne_cons hne hother more rest

/-- The value is read off every longer text, too, with the same or more fuel. -/
def ValueStays (fuel : ℕ) : Prop :=
  ∀ {s : Bytes} {j : Json} {rest : Bytes}, readValue? fuel s = some (j, rest) →
    Ended j rest → ∀ fuel' ≥ fuel, ∀ more,
      readValue? fuel' (s ++ more) = some (j, rest ++ more)

/-- The same for the items of an array. -/
def ItemsStay (fuel : ℕ) : Prop :=
  ∀ {s : Bytes} {items : List Json} {rest : Bytes},
    readItems? fuel s = some (items, rest) → ∀ fuel' ≥ fuel, ∀ more,
      readItems? fuel' (s ++ more) = some (items, rest ++ more)

/-- The same for the members of an object. -/
def MembersStay (fuel : ℕ) : Prop :=
  ∀ {s : Bytes} {members : List (Bytes × Json)} {rest : Bytes},
    readMembers? fuel s = some (members, rest) → ∀ fuel' ≥ fuel, ∀ more,
      readMembers? fuel' (s ++ more) = some (members, rest ++ more)

theorem ended_of_skipBlank {b : UInt8} (h : skipBlank s = b :: rest) (j : Json) :
    Ended j s := by
  refine Or.inl ?_
  rintro rfl
  cases h

theorem readValue?_of_bracket {tail : Bytes} (h : skipBlank s = 0x5b :: tail) :
    readValue? (fuel + 1) s = match skipBlank tail with
      | 0x5d :: rest => some (.array [], rest)
      | _ => (readItems? fuel tail).map fun (items, rest) => (.array items, rest) := by
  rw [readValue?, h]
  rfl

theorem readValue?_of_brace {tail : Bytes} (h : skipBlank s = 0x7b :: tail) :
    readValue? (fuel + 1) s = match skipBlank tail with
      | 0x7d :: rest => some (.object [], rest)
      | _ => (readMembers? fuel tail).map fun (members, rest) => (.object members, rest) := by
  rw [readValue?, h]
  rfl

theorem ValueStays.succ (hitems : ItemsStay fuel) (hmembers : MembersStay fuel) :
    ValueStays (fuel + 1) := by
  intro s j rest h hended fuel' hle more
  obtain ⟨fuel', rfl⟩ : ∃ k, fuel' = k + 1 := ⟨fuel' - 1, by omega⟩
  rw [readValue?] at h
  split at h
  · next tail hskip =>
    simp only [Option.map_eq_some_iff, Prod.exists, Prod.mk.injEq] at h
    obtain ⟨body, rest', hbody, rfl, rfl⟩ := h
    rw [readValue?, skipBlank_append hskip]
    exact congrArg (Option.map _) (readBody?_append hbody more)
  · next tail hskip =>
    rw [readValue?_of_bracket (skipBlank_append hskip more)]
    split at h
    · next tail' hclose =>
      obtain ⟨rfl, rfl⟩ := Prod.mk.inj (Option.some.inj h)
      rw [skipBlank_append hclose]
      rfl
    · next hopen =>
      simp only [Option.map_eq_some_iff, Prod.exists, Prod.mk.injEq] at h
      obtain ⟨items, rest', hread, rfl, rfl⟩ := h
      split
      · next hclose =>
        exact absurd hclose
          (skipBlank_append_ne (skipBlank_ne_nil_of_items hread) hopen more _)
      · exact congrArg (Option.map _) (hitems hread fuel' (by omega) more)
  · next tail hskip =>
    rw [readValue?_of_brace (skipBlank_append hskip more)]
    split at h
    · next tail' hclose =>
      obtain ⟨rfl, rfl⟩ := Prod.mk.inj (Option.some.inj h)
      rw [skipBlank_append hclose]
      rfl
    · next hopen =>
      simp only [Option.map_eq_some_iff, Prod.exists, Prod.mk.injEq] at h
      obtain ⟨members, rest', hread, rfl, rfl⟩ := h
      split
      · next hclose =>
        exact absurd hclose
          (skipBlank_append_ne (skipBlank_ne_nil_of_members hread) hopen more _)
      · exact congrArg (Option.map _) (hmembers hread fuel' (by omega) more)
  · next htext harray hobject =>
    cases hskip : skipBlank s with
    | nil =>
        rw [hskip] at h
        cases h
    | cons b tail =>
        rw [hskip] at h
        have hother : ∀ mark rest, b :: (tail ++ more) = mark :: rest →
            skipBlank s = mark :: tail := by
          intro mark rest hmark
          rw [hskip, (List.cons.inj hmark).1]
        rw [readValue?, skipBlank_append hskip]
        split
        · next hmark => exact absurd (hother _ _ hmark) (htext tail)
        · next hmark => exact absurd (hother _ _ hmark) (harray tail)
        · next hmark => exact absurd (hother _ _ hmark) (hobject tail)
        · exact readAtom?_append h hended more

theorem ItemsStay.succ (hvalue : ValueStays fuel) (hitems : ItemsStay fuel) :
    ItemsStay (fuel + 1) := by
  intro s items rest h fuel' hle more
  obtain ⟨fuel', rfl⟩ : ∃ k, fuel' = k + 1 := ⟨fuel' - 1, by omega⟩
  rw [readItems?] at h ⊢
  simp only [Option.bind_eq_bind, Option.bind_eq_some_iff, Prod.exists] at h ⊢
  obtain ⟨item, s', hitem, h⟩ := h
  split at h
  · next tail hclose =>
    obtain ⟨rfl, rfl⟩ := Prod.mk.inj (Option.some.inj h)
    refine ⟨item, _, hvalue hitem (ended_of_skipBlank hclose _) fuel' (by omega) more, ?_⟩
    rw [skipBlank_append hclose]
    rfl
  · next tail hcomma =>
    simp only [Option.bind_eq_some_iff, Prod.exists] at h
    obtain ⟨items', rest', hread, hpair⟩ := h
    obtain ⟨rfl, rfl⟩ := Prod.mk.inj (Option.some.inj hpair)
    refine ⟨item, _, hvalue hitem (ended_of_skipBlank hcomma _) fuel' (by omega) more, ?_⟩
    rw [skipBlank_append hcomma]
    change (readItems? fuel' (tail ++ more)).bind _ = _
    rw [hitems hread fuel' (by omega) more]
    rfl
  · cases h

theorem MembersStay.succ (hvalue : ValueStays fuel) (hmembers : MembersStay fuel) :
    MembersStay (fuel + 1) := by
  intro s members rest h fuel' hle more
  obtain ⟨fuel', rfl⟩ : ∃ k, fuel' = k + 1 := ⟨fuel' - 1, by omega⟩
  rw [readMembers?] at h ⊢
  split at h
  · next tail hquote =>
    rw [skipBlank_append hquote]
    simp only [Option.bind_eq_bind, Option.bind_eq_some_iff, Prod.exists] at h ⊢
    obtain ⟨name, s', hname, h⟩ := h
    refine ⟨name, _, readBody?_append hname more, ?_⟩
    split at h
    · next tail' hcolon =>
      rw [skipBlank_append hcolon]
      simp only [Option.bind_eq_some_iff, Prod.exists] at h ⊢
      obtain ⟨value, s'', hread, h⟩ := h
      split at h
      · next tail'' hclose =>
        obtain ⟨rfl, rfl⟩ := Prod.mk.inj (Option.some.inj h)
        refine ⟨value, _, hvalue hread (ended_of_skipBlank hclose _) fuel' (by omega) more,
          ?_⟩
        rw [skipBlank_append hclose]
        rfl
      · next tail'' hcomma =>
        simp only [Option.bind_eq_some_iff, Prod.exists] at h
        obtain ⟨members', rest', hrest, hpair⟩ := h
        obtain ⟨rfl, rfl⟩ := Prod.mk.inj (Option.some.inj hpair)
        refine ⟨value, _, hvalue hread (ended_of_skipBlank hcomma _) fuel' (by omega) more,
          ?_⟩
        rw [skipBlank_append hcomma]
        change (readMembers? fuel' (tail'' ++ more)).bind _ = _
        rw [hmembers hrest fuel' (by omega) more]
        rfl
      · cases h
    · cases h
  · cases h

/-- The induction follows the fuel, which every call of the reader spends. -/
theorem stays_all (fuel : ℕ) : ValueStays fuel ∧ ItemsStay fuel ∧ MembersStay fuel := by
  induction fuel with
  | zero =>
      refine ⟨?_, ?_, ?_⟩
      · intro _ _ _ h
        cases h
      · intro _ _ _ h
        cases h
      · intro _ _ _ h
        cases h
  | succ fuel ih =>
      obtain ⟨hvalue, hitems, hmembers⟩ := ih
      exact ⟨ValueStays.succ hitems hmembers, ItemsStay.succ hvalue hitems,
        MembersStay.succ hvalue hmembers⟩

/-! ## Printed objects -/

/-- What begins with a brace is an object, and ends by itself. -/
theorem ended_of_brace (h : readValue? fuel (0x7b :: s) = some (j, rest)) :
    Ended j rest := by
  cases fuel with
  | zero => cases h
  | succ fuel =>
      rw [readValue?_of_brace (skipBlank_cons (by decide) s)] at h
      split at h
      · obtain ⟨rfl, -⟩ := Prod.mk.inj (Option.some.inj h)
        exact Or.inr fun _ hnumber => by cases hnumber
      · simp only [Option.map_eq_some_iff, Prod.exists, Prod.mk.injEq] at h
        obtain ⟨members, rest', -, rfl, -⟩ := h
        exact Or.inr fun _ hnumber => by cases hnumber

section

variable {members : List (Bytes × Json)} (hplain : Plain (.object members))
include hplain

/-- An object ends with its last brace, whatever comes next. -/
theorem readValue?_print_object (hfuel : 2 * (print (.object members)).length ≤ fuel)
    (more : Bytes) :
    readValue? fuel (print (.object members) ++ more) = some (.object members, more) := by
  have hread := readsBack_all.1 _ hplain _ [] le_rfl fun _ hb => absurd hb (by simp)
  rw [List.append_nil] at hread
  exact (stays_all _).1 hread (ended_of_brace hread) fuel hfuel more

/-- A text that begins with an object and goes on holds no value. -/
theorem read?_object_append {more : Bytes} (hmore : skipBlank more ≠ []) :
    read? (print (.object members) ++ more) = none := by
  have hlength : (print (.object members)).length ≤
      (print (.object members) ++ more).length := by
    rw [List.length_append]
    exact Nat.le_add_right _ _
  unfold read?
  rw [readValue?_print_object hplain (by omega) more]
  exact if_neg fun hnil => hmore (List.isEmpty_iff.mp hnil)

/-- A text that holds only part of an object holds no value. -/
theorem read?_of_prefix {part missing : Bytes}
    (hsplit : print (.object members) = part ++ missing) (hmissing : missing ≠ []) :
    read? part = none := by
  have hunread : readValue? (2 * part.length + 2) part = none := by
    by_contra hread
    obtain ⟨⟨j, rest⟩, hpart⟩ := Option.ne_none_iff_exists'.mp hread
    have hended : Ended j rest := by
      cases part with
      | nil => cases hpart
      | cons b part =>
          obtain rfl : 0x7b = b := (List.cons.inj hsplit).1
          exact ended_of_brace hpart
    have hwhole := (stays_all _).1 hpart hended
      (2 * part.length + 2 + 2 * (print (.object members)).length) (by omega) missing
    have hobject := readValue?_print_object hplain
      (Nat.le_add_left _ (2 * part.length + 2)) []
    rw [← hsplit] at hwhole
    rw [List.append_nil, hwhole] at hobject
    have hnil := (Prod.mk.inj (Option.some.inj hobject)).2
    exact hmissing (List.append_eq_nil_iff.mp hnil).2
  unfold read?
  rw [hunread]
  rfl

end

end Consensus.Json
