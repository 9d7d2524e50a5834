import Consensus.Proofs.Node.Course
import Consensus.Proofs.Storage

/-!
# What a journal does to its disk

A journal writes nothing but entries.  So whatever holds of a disk through every
write of entries holds of it through every change to the log.  Term, vote and
snapshot stay as they are, whatever becomes of the change.
-/

namespace Consensus

open Storage (Faithful Writes)
open Storage.Faithful (stored)

variable {σ α β : Type} [Storage σ]

/-! ## Disks of a kind -/

/-- Writes of entries leave disks of the kind `I`, or `E` if they fail. -/
structure EntryWrites (I E : σ → Prop) : Prop where
  append : ∀ entries d, I d → Ensures (Storage.append entries) d (fun _ => I) E
  truncateFrom : ∀ index d, I d →
    Ensures (Storage.truncateFrom index) d (fun _ => I) E
  compactTo : ∀ index d, I d →
    Ensures (Storage.compactTo index) d (fun _ => I) E

namespace Journal

/-- From a disk of the kind `I` the computation leaves such a disk again, or one of
the kind `E` if it fails. -/
def Leaves (I E : σ → Prop) (act : Act σ α) : Prop :=
  ∀ j, I j.disk → Ensures act j (fun _ j' => I j'.disk) fun j' => E j'.disk

variable {I E : σ → Prop}

omit [Storage σ] in
theorem Leaves.bind {act : Act σ α} {f : α → Act σ β} (h : Leaves I E act)
    (hrest : ∀ a, Leaves I E (f a)) : Leaves I E (act >>= f) := by
  intro j hj
  apply Ensures.andThen (h j hj)
  intro a j' hj'
  exact hrest a j' hj'

omit [Storage σ] in
theorem leaves_pure (a : α) : Leaves I E (pure a : Act σ α) :=
  fun _ hj => hj

omit [Storage σ] in
theorem leaves_modifyLog (change : Log → Log) :
    Leaves I E (modifyLog change : Act σ Unit) :=
  fun _ hj => hj

omit [Storage σ] in
theorem leaves_onDisk {act : EStateM Error σ Unit}
    (h : ∀ d, I d → Ensures act d (fun _ => I) E) : Leaves I E (onDisk act) :=
  fun j hj => Ensures.onPart (h j.disk hj)

omit [Storage σ] in
theorem leaves_get {f : Journal σ → Act σ α} (h : ∀ j, Leaves I E (f j)) :
    Leaves I E (get >>= f) :=
  fun j => h j j

omit [Storage σ] in
theorem leaves_ite {c : Prop} [Decidable c] {act act' : Act σ α}
    (h : Leaves I E act) (h' : Leaves I E act') :
    Leaves I E (if c then act else act') := by
  split
  · exact h
  · exact h'

theorem leaves_append [Counting] (h : EntryWrites I E) (term : ℕ) (payload : Payload) :
    Leaves I E (append term payload : Act σ ℕ) :=
  leaves_get fun _ => (leaves_onDisk (h.append _)).bind fun _ =>
    (leaves_modifyLog _).bind fun _ => leaves_pure _

theorem leaves_truncateFrom (h : EntryWrites I E) (index : ℕ) :
    Leaves I E (truncateFrom index : Act σ Unit) :=
  leaves_get fun _ => leaves_ite (leaves_pure _)
    ((leaves_onDisk (h.truncateFrom _)).bind fun _ => leaves_modifyLog _)

theorem leaves_appendFromLeader [Counting] (h : EntryWrites I E) (prevIndex : ℕ)
    (sent : List Entry) :
    Leaves I E (appendFromLeader prevIndex sent : Act σ ℕ) := by
  refine leaves_get fun j => ?_
  have hextend : Leaves I E (do
      if (j.log.merge sent).fresh ≠ [] then
        onDisk (Storage.append (j.log.merge sent).fresh)
        modifyLog fun log =>
          { log with entries := log.entries ++ (j.log.merge sent).fresh }
      return Counting.plus prevIndex sent.length : Act σ ℕ) :=
    leaves_ite ((leaves_onDisk (h.append _)).bind fun _ =>
      (leaves_modifyLog _).bind fun _ => leaves_pure _) (leaves_pure _)
  dsimp only
  cases (j.log.merge sent).cut with
  | none => exact hextend
  | some index => exact (leaves_truncateFrom h index).bind fun _ => hextend

theorem leaves_compactTo (h : EntryWrites I E) (index term : ℕ) :
    Leaves I E (compactTo index term : Act σ Unit) :=
  leaves_get fun _ => leaves_ite (leaves_pure _)
    ((leaves_onDisk (h.compactTo _)).bind fun _ => leaves_modifyLog _)

theorem leaves_resetTo [Counting] (h : EntryWrites I E) (index term : ℕ) :
    Leaves I E (resetTo index term : Act σ Unit) :=
  leaves_get fun _ => leaves_ite
    ((leaves_onDisk (h.truncateFrom _)).bind fun _ =>
      (leaves_onDisk (h.compactTo _)).bind fun _ => leaves_modifyLog _)
    ((leaves_onDisk (h.compactTo _)).bind fun _ => leaves_modifyLog _)

theorem leaves_rebase [Counting] (h : EntryWrites I E) (index term : ℕ) :
    Leaves I E (rebase index term : Act σ Unit) :=
  leaves_get fun _ => leaves_ite (leaves_compactTo h index term)
    (leaves_resetTo h index term)

end Journal

/-! ## Nothing but entries -/

variable [Faithful σ] {d d' d'' : σ}

/-- Nothing but entries differs between the disks. -/
structure EntriesOnly (d d' : σ) : Prop where
  hardState : (stored d').hardState = (stored d).hardState
  snapshot : (stored d').snapshot = (stored d).snapshot

theorem EntriesOnly.refl (d : σ) : EntriesOnly d d := ⟨rfl, rfl⟩

theorem EntriesOnly.of_stored (h : stored d' = stored d) : EntriesOnly d d' := by
  constructor <;> rw [h]

theorem EntriesOnly.trans (h : EntriesOnly d d') (h' : EntriesOnly d' d'') :
    EntriesOnly d d'' :=
  ⟨h'.hardState.trans h.hardState, h'.snapshot.trans h.snapshot⟩

/-- A write of entries. -/
theorem EntriesOnly.ensures {act : EStateM Error σ Unit}
    {change : Stored → Stored} (h : EntriesOnly d d')
    (hwrites : Writes stored act change)
    (hhard : ∀ s, (change s).hardState = s.hardState)
    (hsnapshot : ∀ s, (change s).snapshot = s.snapshot) :
    Ensures act d' (fun _ => EntriesOnly d) (EntriesOnly d) := by
  refine (hwrites d').mono (fun _ d'' hd => h.trans ?_)
    fun d'' hd => h.trans (.of_stored hd)
  constructor
  · rw [hd, hhard]
  · rw [hd, hsnapshot]

theorem entryWrites_entriesOnly (d : σ) :
    EntryWrites (EntriesOnly d) (EntriesOnly d) where
  append entries _ h :=
    h.ensures (Faithful.append entries) (fun _ => rfl) fun _ => rfl
  truncateFrom index _ h :=
    h.ensures (Faithful.truncateFrom index) (fun _ => rfl) fun _ => rfl
  compactTo index _ h :=
    h.ensures (Faithful.compactTo index) (fun _ => rfl) fun _ => rfl

namespace Journal

/-- The computation leaves term, vote and snapshot on the disk alone. -/
def Spares (act : Act σ α) : Prop :=
  ∀ j, Ensures act j (fun _ j' => EntriesOnly j.disk j'.disk)
    fun j' => EntriesOnly j.disk j'.disk

theorem spares_append [Counting] (term : ℕ) (payload : Payload) :
    Spares (append term payload : Act σ ℕ) := fun j =>
  leaves_append (entryWrites_entriesOnly j.disk) term payload j (.refl _)

theorem spares_appendFromLeader [Counting] (prevIndex : ℕ) (sent : List Entry) :
    Spares (appendFromLeader prevIndex sent : Act σ ℕ) := fun j =>
  leaves_appendFromLeader (entryWrites_entriesOnly j.disk) prevIndex sent j
    (.refl _)

theorem spares_compactTo (index term : ℕ) :
    Spares (compactTo index term : Act σ Unit) := fun j =>
  leaves_compactTo (entryWrites_entriesOnly j.disk) index term j (.refl _)

theorem spares_rebase [Counting] (index term : ℕ) :
    Spares (rebase index term : Act σ Unit) := fun j =>
  leaves_rebase (entryWrites_entriesOnly j.disk) index term j (.refl _)

/-! ## What each change amounts to -/

/-- A new entry comes after the last one, in memory and on the disk. -/
theorem ensures_append (j : Journal σ) (term : ℕ) (payload : Payload) :
    Ensures (append term payload) j
      (fun index j' => index = j.log.lastIndex + 1 ∧
        j'.log = j.log.push ⟨term, index, payload⟩ ∧
        stored j'.disk = (stored j.disk).append [⟨term, index, payload⟩])
      fun j' => j'.log = j.log ∧ stored j'.disk = stored j.disk := by
  unfold append
  rw [Ensures.get_bind_iff]
  refine Ensures.bind (Ensures.onPart ((Faithful.append _ j.disk).mono ?_
    fun _ hdisk => ⟨rfl, hdisk⟩))
  exact fun _ _ hdisk => ⟨rfl, rfl, hdisk⟩

/-- The boundary moves up, if at all. -/
theorem ensures_compactTo (j : Journal σ) {index : ℕ}
    (hlt : j.log.snapshotIndex < index) (term : ℕ) :
    Ensures (compactTo index term) j
      (fun _ j' => j'.log = j.log.dropThrough index term ∧
        stored j'.disk = (stored j.disk).drop index)
      fun j' => j'.log = j.log ∧ stored j'.disk = stored j.disk := by
  unfold compactTo
  rw [Ensures.get_bind_iff]
  refine Ensures.ite (fun hle => absurd hle (not_le.mpr hlt)) fun _ => ?_
  refine Ensures.bind (Ensures.onPart ((Faithful.compactTo index j.disk).mono ?_
    fun _ hdisk => ⟨rfl, hdisk⟩))
  exact fun _ _ hdisk => ⟨rfl, hdisk⟩

end Journal

end Consensus
