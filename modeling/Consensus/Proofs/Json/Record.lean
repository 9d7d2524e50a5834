import Consensus.Json.Record
import Consensus.Proofs.Json.RoundTrip
import Mathlib.Data.List.Nodup

/-!
# Records and lists are read as they were written

Everything that is written here is plain, so it can be read back.  A list is
read back if each of its items is, and a record with distinct names gives back
the content of every field.
-/

namespace Consensus.Json

/-! ## What is written is plain -/

theorem plain_ofNat (n : ℕ) : Plain (ofNat n) := ⟨n, rfl⟩

theorem plain_ofList {α : Type} {form : α → Json} {items : List α}
    (h : ∀ a ∈ items, Plain (form a)) : Plain (ofList form items) := by
  refine plainItems_iff.mpr fun item hitem => ?_
  obtain ⟨a, ha, rfl⟩ := List.mem_map.mp hitem
  exact h a ha

theorem plain_ofBytes (bytes : Bytes) : Plain (ofBytes bytes) :=
  plain_ofList fun _ _ => plain_ofNat _

theorem plain_ofText (text : String) : Plain (ofText text) := ⟨_, rfl⟩

theorem plain_ofRecord {fields : List (String × Json)}
    (h : ∀ field ∈ fields, Plain field.2) : Plain (ofRecord fields) := by
  refine plainMembers_iff.mpr fun m hm => ?_
  obtain ⟨field, hfield, rfl⟩ := List.mem_map.mp hm
  exact ⟨⟨_, rfl⟩, h field hfield⟩

theorem plain_ofVariant {name : String} {content : Json} (h : Plain content) :
    Plain (ofVariant name content) := by
  refine plain_ofRecord fun field hfield => ?_
  rw [List.mem_singleton.mp hfield]
  exact h

/-! ## Lists -/

theorem mapM_eq_some {α β : Type} {f : α → Option β} {g : α → β} {xs : List α}
    (h : ∀ x ∈ xs, f x = some (g x)) : xs.mapM f = some (xs.map g) := by
  induction xs with
  | nil => rfl
  | cons x xs ih =>
      rw [List.mapM_cons, h x List.mem_cons_self,
        ih fun y hy => h y (List.mem_cons_of_mem x hy)]
      rfl

theorem mapM_eq_none {α β : Type} {f : α → Option β} {xs : List α}
    (h : ∃ x ∈ xs, f x = none) : xs.mapM f = none := by
  induction xs with
  | nil => exact absurd h (by simp)
  | cons x xs ih =>
      rw [List.mapM_cons]
      cases hx : f x with
      | none => rfl
      | some b =>
          obtain ⟨y, hy, hnone⟩ := h
          rcases List.mem_cons.mp hy with rfl | htail
          · exact absurd (hx.symm.trans hnone) (by simp)
          · rw [ih ⟨y, htail, hnone⟩]
            rfl

/-- What a list is read as comes from its items one by one. -/
theorem exists_of_mapM {α β : Type} {f : α → Option β} {xs : List α} {ys : List β}
    (h : xs.mapM f = some ys) {y : β} (hy : y ∈ ys) : ∃ x ∈ xs, f x = some y := by
  induction xs generalizing ys with
  | nil =>
      obtain rfl := Option.some.inj h
      exact absurd hy List.not_mem_nil
  | cons x xs ih =>
      rw [List.mapM_cons] at h
      obtain ⟨z, hz, hrest⟩ := Option.bind_eq_some_iff.mp h
      obtain ⟨zs, hzs, hall⟩ := Option.bind_eq_some_iff.mp hrest
      obtain rfl := Option.some.inj hall
      rcases List.mem_cons.mp hy with rfl | htail
      · exact ⟨x, List.mem_cons_self, hz⟩
      · obtain ⟨w, hw, hwy⟩ := ih hzs htail
        exact ⟨w, List.mem_cons_of_mem x hw, hwy⟩

theorem list?_ofList {α β : Type} {form : α → Json} {read : Json → Option β}
    {g : α → β} {items : List α} (h : ∀ a ∈ items, read (form a) = some (g a)) :
    list? read (ofList form items) = some (items.map g) := by
  unfold list? ofList
  dsimp only
  rw [List.mapM_map]
  exact mapM_eq_some h

theorem bytes?_ofBytes (bytes : Bytes) : bytes? (ofBytes bytes) = some bytes := by
  have hread : list? (fun item => (nat? 256 item).map UInt8.ofNat)
      (ofList (fun b : UInt8 => ofNat b.toNat) bytes) = some (bytes.map id) := by
    refine list?_ofList fun b _ => ?_
    have hlt : b.toNat < 256 := UInt8.toNat_lt b
    rw [nat?_ofNat, if_pos hlt, Option.map_some, UInt8.ofNat_toNat]
    rfl
  rw [List.map_id] at hread
  exact hread

/-! ## Records -/

theorem uniqueField?_of_mem {members : List (String × Json)}
    (hnames : (members.map Prod.fst).Nodup) {name : String} {value : Json}
    (h : (name, value) ∈ members) :
    uniqueField? members name = some (some value) := by
  have hfilter : members.filter (fun m => m.1 == name) = [(name, value)] := by
    induction members with
    | nil => exact absurd h List.not_mem_nil
    | cons m members ih =>
        rw [List.map_cons, List.nodup_cons] at hnames
        rcases List.mem_cons.mp h with rfl | htail
        · rw [List.filter_cons, if_pos (beq_self_eq_true name),
            List.filter_eq_nil_iff.mpr]
          intro m hm heq
          exact hnames.1 (List.mem_map.mpr ⟨m, hm, beq_iff_eq.mp heq⟩)
        · have hne : ¬ (m.1 == name) = true := by
            intro heq
            refine hnames.1 (List.mem_map.mpr ⟨_, htail, ?_⟩)
            exact (beq_iff_eq.mp heq).symm
          rw [List.filter_cons, if_neg hne]
          exact ih hnames.2 htail
  unfold uniqueField?
  rw [hfilter]

/-- A record gives back the content of each field. -/
theorem fields?_ofRecord {names : List String} {fields : List (String × Json)}
    (hfields : fields.map Prod.fst = names) (hnames : names.Nodup) :
    fields? names (ofRecord fields) =
      some (fields.map fun field => some field.2) := by
  subst hfields
  have hnamed : (fields.map fun field =>
      (escape (Utf8.encode field.1), field.2)).mapM (fun member =>
        (bodyText? member.1).bind fun name => some (name, member.2)) =
          some fields := by
    rw [List.mapM_map]
    have hread : fields.mapM (fun field : String × Json =>
        (bodyText? (escape (Utf8.encode field.1))).bind fun name =>
          some (name, field.2)) = some (fields.map id) := by
      refine mapM_eq_some fun field _ => ?_
      rw [bodyText?_escape]
      rfl
    rw [List.map_id] at hread
    exact hread
  unfold fields? ofRecord
  dsimp only [Option.bind_eq_bind]
  refine (congrArg (Option.bind · _) hnamed).trans ?_
  rw [Option.bind_some, List.mapM_map]
  exact mapM_eq_some fun field hfield => uniqueField?_of_mem hnames hfield

/-! ## Alternatives -/

/-- An alternative with content is read by its name. -/
theorem variant?_ofVariant (name : String) (content : Json) :
    (ofVariant name content).variant? = some (name, some content) := by
  change (bodyText? _).map _ = _
  rw [bodyText?_escape]
  rfl

/-- A name alone is an alternative without content. -/
theorem variant?_ofText (name : String) : (ofText name).variant? = some (name, none) := by
  change (bodyText? _).map _ = _
  rw [bodyText?_escape]
  rfl

end Consensus.Json
