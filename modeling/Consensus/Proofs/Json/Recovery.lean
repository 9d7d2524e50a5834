import Consensus.Codec.Message
import Consensus.Proofs.Codec

/-!
# Readers that recover what was written

A form and a reader of it belong together if the reader gives back what the form
writes, and if it reads nothing that the form could not write.  Then what has been
read once, from whatever bytes, can be written and read any number of times.

Numbers, texts and bytes have such readers, and so have lists, values that may be
missing, records and alternatives made of what has.
-/

namespace Consensus.Json

variable {α : Type} {Fits : α → Prop} {form : α → Json} {read : Json → Option α}

/-- What the form writes is plain and is read as it was, if it fits, and all that is
read fits. -/
structure Recovers (Fits : α → Prop) (form : α → Json) (read : Json → Option α) :
    Prop where
  plain : ∀ a, (form a).Plain
  reads : ∀ a, Fits a → read (form a) = some a
  fits : ∀ j a, read j = some a → Fits a

namespace Recovers

theorem read_bind (h : Recovers Fits form read) {a : α} (hfits : Fits a) :
    (read? (form a).print >>= read) = some a := by
  rw [read?_print (h.plain a)]
  exact h.reads a hfits

theorem fits_of_bind (h : Recovers Fits form read) {bytes : Bytes} {a : α}
    (hread : (read? bytes >>= read) = some a) : Fits a := by
  obtain ⟨j, -, hj⟩ := Option.bind_eq_some_iff.mp hread
  exact h.fits j a hj

/-! ## Fields -/

theorem required (h : Recovers Fits form read) {field : Option Json} {a : α}
    (hread : Json.required read field = some a) : Fits a := by
  cases field with
  | none => exact absurd hread (by simp [Json.required])
  | some j => exact h.fits j a hread

/-- A value that may be null, if none is written as null itself. -/
theorem nullable (h : Recovers Fits form read) (hnull : ∀ a, form a ≠ .null) :
    Recovers (fun value : Option α => ∀ a, value = some a → Fits a) (ofOption form)
      (Json.nullable read) where
  plain value := by
    cases value with
    | none => trivial
    | some a => exact h.plain a
  reads value hfits := by
    cases value with
    | none => rfl
    | some a =>
        have hread : read (form a) = some a := h.reads a (hfits a rfl)
        have hvalue : Json.nullable read (form a) = (read (form a)).map some := by
          cases hform : form a with
          | null => exact absurd hform (hnull a)
          | _ => rfl
        exact hvalue.trans (by rw [hread, Option.map_some])
  fits j value hread a hvalue := by
    subst hvalue
    cases j with
    | null => exact absurd hread (by simp [Json.nullable])
    | _ =>
        obtain ⟨b, hb, hba⟩ := Option.map_eq_some_iff.mp hread
        obtain rfl := Option.some.inj hba
        exact h.fits _ b hb

theorem optional (h : Recovers Fits form read) (hnull : ∀ a, form a ≠ .null)
    {field : Option Json} {value : Option α}
    (hread : Json.optional read field = some value) : ∀ a, value = some a → Fits a := by
  cases field with
  | none =>
      obtain rfl := Option.some.inj hread
      exact fun a ha => absurd ha (by simp)
  | some j => exact (h.nullable hnull).fits j value hread

theorem list (h : Recovers Fits form read) :
    Recovers (fun items : List α => ∀ a ∈ items, Fits a) (ofList form) (list? read) where
  plain items := plain_ofList fun a _ => h.plain a
  reads items hfits := by
    have hitems : list? read (ofList form items) = some (items.map id) :=
      list?_ofList fun a ha => h.reads a (hfits a ha)
    rw [hitems, List.map_id]
  fits j items hread a ha := by
    cases j with
    | array values =>
        obtain ⟨value, -, hvalue⟩ := exists_of_mapM hread ha
        exact h.fits value a hvalue
    | _ => exact absurd hread (by simp [list?])

end Recovers

/-! ## Single values -/

theorem recovers_word : Recovers IsWord ofNat word? where
  plain := plain_ofNat
  reads _ h := word?_ofNat h
  fits j n hread := by
    cases j with
    | number spelling =>
        obtain ⟨hdigits, hn⟩ := Option.ite_none_right_eq_some.mp hread
        obtain rfl := Option.some.inj hn
        exact of_decide_eq_true (Bool.and_eq_true_iff.mp hdigits).2
    | _ => exact absurd hread (by simp [word?, nat?])

theorem ofNat_ne_null (n : ℕ) : ofNat n ≠ .null := Json.noConfusion

theorem text?_ofText (text : String) : text? (ofText text) = some text :=
  bodyText?_escape text

/-! ## Records of one field, and alternatives -/

theorem field1?_ofRecord {β : Type} (name : String) (content : Json)
    (read : Option Json → Option β) :
    field1? name read (ofRecord [(name, content)]) = read (some content) := by
  have hfields : fields? [name] (ofRecord [(name, content)]) = some [some content] :=
    fields?_ofRecord rfl (List.nodup_singleton name)
  rw [field1?, hfields]

theorem exists_of_field1? {β : Type} {name : String} {read : Option Json → Option β}
    {j : Json} {b : β} (h : field1? name read j = some b) :
    ∃ field, read field = some b := by
  unfold field1? at h
  split at h
  · exact ⟨_, h⟩
  · exact absurd h (by simp)

theorem Recovers.of_field1? (h : Recovers Fits form read) {name : String} {j : Json} {a : α}
    (hread : field1? name (Json.required read) j = some a) : Fits a := by
  obtain ⟨field, hfield⟩ := exists_of_field1? hread
  exact h.required hfield

end Consensus.Json
