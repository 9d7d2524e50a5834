import Consensus.Proofs.Node.Replicating

/-!
# Appending as a leader

A leader grows its log by one entry of its own term, commits what it can and
sends the rest to its peers.  The first entry of a term, a command and a
membership change are all appended this way.
-/

namespace Consensus

/-- The entry that a node appends next if it leads. -/
def Ledger.nextEntry (ℓ : Ledger) (node : ℕ) (payload : Payload) : Entry :=
  ⟨ℓ.term node, (ℓ.log node).length + 1, payload⟩

namespace Node

variable {S : Scope} {ℓ : Ledger} {id applied : ℕ} {n : Node Memory}
  {members : NodeSet} {peers : Table Progress}

/-! ## The entry -/

theorem changes_drop_append_single {entries : List Entry} {entry : Entry}
    {k : ℕ} (hk : k ≤ entries.length) :
    changes ((entries ++ [entry]).drop k) =
      changes (entries.drop k) + if entry.config?.isSome then 1 else 0 := by
  rw [List.drop_append_of_le_length hk, changes_append, changes_single]

/-- A membership comes from the one in force, and is not expected where the
members stay. -/
def Permits (S : Scope) (ℓ : Ledger) (id : ℕ) (payload : Payload) : Prop :=
  ∀ members, (ℓ.nextEntry id payload).config? = some members → ¬ S.fixed ∧
    ∃ change, members = (membersAfter S.members (ℓ.log id)).withChange change

theorem permits_of_config?_eq_none {payload : Payload}
    (h : (ℓ.nextEntry id payload).config? = none) : Permits S ℓ id payload :=
  fun members hmembers => absurd (h.symm.trans hmembers) (by simp)

theorem Leader.moves_append (h : Leader S ℓ id members peers applied)
    (hsound : ℓ.Sound S) (payload : Payload) :
    ℓ.Moves id (ℓ.append id (ℓ.nextEntry id payload)) := by
  obtain ⟨e, he, hleader⟩ := h.elected
  exact Ledger.moves_append hsound he hleader h.lead

theorem Leader.sound_append (h : Leader S ℓ id members peers applied)
    (hsound : ℓ.Sound S) {payload : Payload}
    (hpermits : Permits S ℓ id payload) :
    (ℓ.append id (ℓ.nextEntry id payload)).Sound S := by
  obtain ⟨e, he, hleader⟩ := h.elected
  exact hsound.append he hleader h.lead rfl rfl hpermits

/-- The leader with a longer log, and a membership that takes notice of it. -/
theorem Tracks.append (h : Tracks S ℓ id n) (hsound : ℓ.Sound S)
    (hrole : n.standing.role = .leader) {payload : Payload}
    {j : Journal Memory} {membership : Membership}
    (hshows : j.Shows S (ℓ.log id ++ [ℓ.nextEntry id payload]))
    (hsame : n.toJournal.SameBase j)
    (hcommitted : membership.committed = n.membership.committed)
    (hpending : changes ((ℓ.log id ++ [ℓ.nextEntry id payload]).drop
      n.standing.commitIndex) ≤ 1)
    (hnoticed : ∀ entry ∈ (ℓ.log id ++ [ℓ.nextEntry id payload]).drop
        n.standing.lastApplied,
      entry.config?.isSome → ∃ change, membership.pending = some change ∧
        entry.index ≤ change.1) :
    Tracks S (ℓ.append id (ℓ.nextEntry id payload)) id
      { n.withJournal j with membership := membership } := by
  have hleader := h.leader hrole
  have hgrows := (hleader.moves_append hsound payload).toGrows
  have hlog := ℓ.append_log id (ℓ.nextEntry id payload)
  have hcommit : (ℓ.log id ++ [ℓ.nextEntry id payload]).take
      n.standing.commitIndex = (ℓ.log id).take n.standing.commitIndex :=
    List.take_append_of_le_length h.commit_le
  have happlied : (ℓ.log id ++ [ℓ.nextEntry id payload]).take
      n.standing.lastApplied = (ℓ.log id).take n.standing.lastApplied :=
    List.take_append_of_le_length h.applied_le_length
  exact { h with
    journal := by
      rw [hlog]
      exact hshows
    saved := hsame.hardState.trans h.saved
    boundary_le := hsame.boundary.le.trans h.boundary_le
    commit_le := by
      rw [hlog, List.length_append]
      exact h.commit_le.trans (Nat.le_add_right _ _)
    settled := by
      rw [hlog]
      change Ledger.Settled S _ _ (List.take n.standing.commitIndex _)
      rw [hcommit]
      exact h.settled.mono hgrows le_rfl
    pending := by
      rw [hlog]
      exact hpending
    record := by
      rw [hlog]
      change n.recorder.record =
        recordAfter (List.take n.standing.lastApplied _)
      rw [happlied]
      exact h.record
    members := by
      rw [hlog]
      change membership.committed =
        membersAfter S.members (List.take n.standing.lastApplied _) ∨ _
      rw [happlied, hcommitted]
      exact h.members
    noticed := by
      rw [hlog]
      exact hnoticed
    candidate := fun hcandidate => by
      have hnot : n.standing.role = .candidate := hcandidate
      rw [hrole] at hnot
      exact absurd hnot (by simp)
    leader := fun _ => {
      elected := hleader.elected
      lead := by rw [hlog]; exact ℓ.append_lead id _
      held := by
        rw [hlog, List.length_append]
        exact (ℓ.append_held id _).ge
      exact := by
        rw [hlog]
        change membership.committed =
          membersAfter S.members (List.take n.standing.lastApplied _)
        rw [happlied, hcommitted]
        exact hleader.exact
      peers := hleader.peers.mono hgrows }
    truthful := h.truthful.mono hgrows le_rfl }

/-- An entry that carries no membership needs no notice. -/
theorem Tracks.append_of_config?_eq_none (h : Tracks S ℓ id n)
    (hsound : ℓ.Sound S) (hrole : n.standing.role = .leader)
    {payload : Payload} {j : Journal Memory}
    (hshows : j.Shows S (ℓ.log id ++ [ℓ.nextEntry id payload]))
    (hsame : n.toJournal.SameBase j)
    (hconfig : (ℓ.nextEntry id payload).config? = none) :
    Tracks S (ℓ.append id (ℓ.nextEntry id payload)) id (n.withJournal j) := by
  refine h.append hsound hrole hshows hsame rfl ?_ ?_
  · rw [changes_drop_append_single h.commit_le, hconfig]
    exact h.pending
  · intro entry hentry hsome
    rw [List.drop_append_of_le_length h.applied_le_length, List.mem_append,
      List.mem_singleton] at hentry
    rcases hentry with hold | rfl
    · exact h.noticed entry hold hsome
    · rw [hconfig] at hsome
      exact absurd hsome (by simp)

theorem Tracks.ensures_append (h : Tracks S ℓ id n) (hall : Numbered (ℓ.log id))
    (payload : Payload) :
    Ensures (onJournal (Journal.append n.standing.currentTerm payload)) n
      (fun index n' => index = (ℓ.log id).length + 1 ∧ ∃ j,
        n' = n.withJournal j ∧
        j.Shows S (ℓ.log id ++ [ℓ.nextEntry id payload]) ∧
        n.toJournal.SameBase j)
      fun _ => False := by
  refine ensures_onJournal ((h.journal.append hall _ payload).imp ?_)
  rintro index j ⟨hindex, hshows, hsame⟩
  rw [h.term] at hshows
  exact ⟨hindex, j, rfl, hshows, hsame⟩

/-! ## What follows -/

/-- Committing what a majority holds, and sending the rest. -/
def spread : Act Memory Unit := do
  Node.advanceCommit
  Node.replicateAll

theorem Ready.spread (h : Ready S ℓ id n) (hall : Numbered (ℓ.log id))
    (hrole : n.standing.role = .leader) :
    Ensures Node.spread n
      (fun _ n' => Rests S ℓ id n.settings
        (commitReached ℓ id n.membership.committed n.peers
          n.standing.commitIndex) n.log.snapshotIndex n')
      fun _ => False := by
  unfold Node.spread
  refine (h.advanceCommit hall hrole).andThen ?_
  rintro - n' hn'
  exact (hn'.tracks.replicateAll hall).mono
    (fun _ n'' hquiet => hn'.quiet hquiet) fun _ he => he

end Node

end Consensus
