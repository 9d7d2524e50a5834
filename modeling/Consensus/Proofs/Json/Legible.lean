import Consensus.Proofs.Json.Record

/-!
# What is written is legible

Numbers, lists and records are printed in characters of 7 bits, without a line break,
as long as the names in them are.  So one value to a line is a text that can be taken
apart again.
-/

namespace Consensus.Json

open Utf8 (IsPrintable isPrintable_append isPrintable_cons)

/-- The value is printed in printable characters only. -/
def Legible (j : Json) : Prop := IsPrintable j.print

/-- A name or a text that is its own body. -/
def LegibleText (text : String) : Prop := IsPrintable (escape (Utf8.encode text))

instance (text : String) : Decidable (LegibleText text) :=
  inferInstanceAs (Decidable (IsPrintable _))

theorem legible_ofNat (n : ℕ) : Legible (ofNat n) := by
  intro b hb
  have hdigit : isDigit b = true := isDigit_of_mem_decimal hb
  have hrange : 0x30 ≤ b.toNat ∧ b.toNat ≤ 0x39 := by
    simpa [isDigit, UInt8.le_iff_toNat_le] using hdigit
  omega

theorem legible_ofText {text : String} (h : LegibleText text) :
    Legible (ofText text) := by
  refine isPrintable_cons.mpr ⟨by decide, isPrintable_append.mpr ⟨h, by decide⟩⟩

theorem isPrintable_printItems {items : List Json} (h : ∀ item ∈ items, Legible item) :
    IsPrintable (printItems items) := by
  induction items with
  | nil => exact fun _ hb => absurd hb List.not_mem_nil
  | cons item items ih =>
      have hitem := h item List.mem_cons_self
      have hrest := ih fun later hlater => h later (List.mem_cons_of_mem item hlater)
      cases items with
      | nil => exact hitem
      | cons next items =>
          exact isPrintable_append.mpr
            ⟨hitem, isPrintable_cons.mpr ⟨by decide, hrest⟩⟩

theorem legible_ofList {α : Type} {form : α → Json} {items : List α}
    (h : ∀ a ∈ items, Legible (form a)) : Legible (ofList form items) := by
  have hitems : IsPrintable (printItems (items.map form)) := by
    refine isPrintable_printItems fun item hitem => ?_
    obtain ⟨a, ha, rfl⟩ := List.mem_map.mp hitem
    exact h a ha
  exact isPrintable_cons.mpr ⟨by decide, isPrintable_append.mpr ⟨hitems, by decide⟩⟩

theorem legible_ofBytes (bytes : Bytes) : Legible (ofBytes bytes) :=
  legible_ofList fun _ _ => legible_ofNat _

theorem isPrintable_printMembers {fields : List (String × Json)}
    (h : ∀ field ∈ fields, LegibleText field.1 ∧ Legible field.2) :
    IsPrintable (printMembers
      (fields.map fun (name, value) => (escape (Utf8.encode name), value))) := by
  induction fields with
  | nil => exact fun _ hb => absurd hb List.not_mem_nil
  | cons field fields ih =>
      obtain ⟨hname, hvalue⟩ := h field List.mem_cons_self
      have hrest := ih fun later hlater => h later (List.mem_cons_of_mem field hlater)
      have hmember : ∀ tail, IsPrintable tail →
          IsPrintable (0x22 :: (escape (Utf8.encode field.1) ++ 0x22 :: 0x3a :: tail)) := by
        intro tail htail
        refine isPrintable_cons.mpr ⟨by decide, isPrintable_append.mpr ⟨hname, ?_⟩⟩
        exact isPrintable_cons.mpr ⟨by decide, isPrintable_cons.mpr ⟨by decide, htail⟩⟩
      cases fields with
      | nil => exact hmember _ hvalue
      | cons next fields =>
          exact hmember _ (isPrintable_append.mpr
            ⟨hvalue, isPrintable_cons.mpr ⟨by decide, hrest⟩⟩)

theorem legible_ofRecord {fields : List (String × Json)}
    (h : ∀ field ∈ fields, LegibleText field.1 ∧ Legible field.2) :
    Legible (ofRecord fields) :=
  isPrintable_cons.mpr ⟨by decide,
    isPrintable_append.mpr ⟨isPrintable_printMembers h, by decide⟩⟩

theorem legible_ofVariant {name : String} {content : Json} (hname : LegibleText name)
    (hcontent : Legible content) : Legible (ofVariant name content) := by
  refine legible_ofRecord fun field hfield => ?_
  rw [List.mem_singleton.mp hfield]
  exact ⟨hname, hcontent⟩

end Consensus.Json
