import Consensus.Proofs.Node.Leading
import Consensus.Node.Requests

/-!
# Commands and membership changes are sound

A leader appends what a client asks for.  It takes a membership change only if
none is under way, so the membership that the change starts from is the one in
force after its whole log.
-/

namespace Consensus.Node

variable {S : Scope} {ℓ : Ledger} {id : ℕ} {n : Node Memory}

/-- Telling a client something changes nothing else. -/
theorem Ready.reply (h : Ready S ℓ id n) (ticket : ℕ) {answer : Answer}
    (hclient : IsForClient answer) :
    Ensures (Node.reply ticket answer) n
      (fun _ n' => Rests S ℓ id n.settings n.standing.commitIndex
        n.log.snapshotIndex n')
      fun _ => False :=
  h.rests.quiet (quiet_emit (backed_answer hclient))

/-! ## Commands -/

/-- The leader with a caller that waits for a command. -/
def awaiting (n : Node Memory) (index : ℕ) (w : Waiter) : Node Memory :=
  { n with commandWaiters := n.commandWaiters.insert index w }

theorem quiet_awaiting (n : Node Memory) (index : ℕ) (w : Waiter) :
    Quiet S ℓ id n (n.awaiting index w) :=
  ⟨rfl, rfl, rfl, rfl, rfl, fun h => h, fun _ _ h => h⟩

theorem Ready.handled_command (h : Ready S ℓ id n) (hsound : ℓ.Sound S)
    (ticket : ℕ) (payload : Bytes) :
    Handled S ℓ id n (Node.handleCommand ticket payload) n.log.snapshotIndex
      (fun _ _ => True) False := by
  by_cases hrole : n.standing.role = .leader
  · have hleader := h.tracks.leader hrole
    have hconfig : (ℓ.nextEntry id (.command payload)).config? = none := rfl
    let ℓ' := ℓ.append id (ℓ.nextEntry id (.command payload))
    have hsound' : ℓ'.Sound S :=
      hleader.sound_append hsound (permits_of_config?_eq_none hconfig)
    have hall := hsound.numbered (hsound.node id).grounded
    have hall' := hsound'.numbered (hsound'.node id).grounded
    refine ⟨ℓ', commitReached ℓ' id n.membership.committed n.peers
      n.standing.commitIndex, hleader.moves_append hsound _, hsound',
      fun threshold => ?_⟩
    have hthreshold := h.withThreshold threshold
    unfold Node.handleCommand
    rw [Ensures.get_bind_iff]
    refine Ensures.ite (fun hnot => absurd hrole hnot) fun _ => ?_
    refine (hthreshold.tracks.ensures_append hall
      (.command payload)).andThen_of_succeeds ?_
    rintro index n' ⟨-, j, rfl, hshows, hsame⟩
    rw [Ensures.modify_bind_iff]
    have hready : Ready S ℓ' id ((n.withThreshold threshold).withJournal j) :=
      ⟨hthreshold.tracks.append_of_config?_eq_none hsound hrole hshows hsame
        hconfig, h.settled.applied, h.settled.persisted⟩
    have hboundary : j.log.snapshotIndex = n.log.snapshotIndex := hsame.boundary
    rw [← hboundary]
    exact ((hready.quiet (quiet_awaiting _ index
      ⟨n.standing.currentTerm, ticket⟩)).spread hall' hrole).mono
        (fun _ m hm => ⟨hm, trivial⟩) fun _ he => he.elim
  · refine handled_of_rests n.standing.commitIndex hsound fun threshold => ?_
    unfold Node.handleCommand
    rw [Ensures.get_bind_iff]
    exact Ensures.ite (fun _ => (h.withThreshold threshold).reply ticket trivial)
      fun hnot => absurd (not_not.mp hnot) hrole

/-! ## Membership changes -/

/-- A leader without a pending change has no change that is not applied. -/
theorem Tracks.changes_eq_zero (h : Tracks S ℓ id n)
    (hpending : n.membership.pending = none) :
    changes ((ℓ.log id).drop n.standing.lastApplied) = 0 := by
  refine List.countP_eq_zero.mpr fun entry hentry hconfig => ?_
  obtain ⟨change, hchange, -⟩ := h.noticed entry hentry hconfig
  rw [hpending] at hchange
  exact absurd hchange (by simp)

/-- The leader with a change under way, which replicates to more peers, new ones
from `nextIndex` on. -/
def changing (n : Node Memory) (index : ℕ) (members : NodeSet) (w : Waiter)
    (nextIndex : ℕ) : Node Memory :=
  let n := { n with
    membership := n.membership.onAppend index members
    changeWaiters := n.changeWaiters.insert index w }
  n.syncPeers n.targets nextIndex

theorem quiet_changing (n : Node Memory) (index : ℕ) (members : NodeSet)
    (w : Waiter) {nextIndex : ℕ} (hnext : 0 < nextIndex) :
    Quiet S ℓ id { n with membership := n.membership.onAppend index members }
      (n.changing index members w nextIndex) := by
  have hwaits : Quiet S ℓ id
      { n with membership := n.membership.onAppend index members }
      { n with
        membership := n.membership.onAppend index members
        changeWaiters := n.changeWaiters.insert index w } :=
    ⟨rfl, rfl, rfl, rfl, rfl, fun h => h, fun _ _ h => h⟩
  exact hwaits.trans (quiet_syncPeers _ hnext)

/-- The leader's log with a change at its end. -/
theorem Tracks.append_config (h : Tracks S ℓ id n) (hsound : ℓ.Sound S)
    (hrole : n.standing.role = .leader)
    (hpending : n.membership.pending = none)
    (happlied : n.standing.lastApplied = n.standing.commitIndex)
    {members : NodeSet} {j : Journal Memory}
    (hshows : j.Shows S (ℓ.log id ++ [ℓ.nextEntry id (.config members)]))
    (hsame : n.toJournal.SameBase j) :
    Tracks S (ℓ.append id (ℓ.nextEntry id (.config members))) id
      { n.withJournal j with
        membership := n.membership.onAppend ((ℓ.log id).length + 1) members } := by
  have hzero := h.changes_eq_zero hpending
  refine h.append hsound hrole hshows hsame rfl ?_ ?_
  · rw [changes_drop_append_single h.commit_le, ← happlied, hzero]
    exact le_rfl
  · intro entry hentry hconfig
    rw [List.drop_append_of_le_length h.applied_le_length, List.mem_append,
      List.mem_singleton] at hentry
    rcases hentry with hold | rfl
    · exact absurd hconfig (List.countP_eq_zero.mp hzero entry hold)
    · exact ⟨((ℓ.log id).length + 1, members), rfl, le_rfl⟩

/-- The leader takes a change of the membership in force after its log. -/
theorem Ready.permits_change (h : Ready S ℓ id n) (hfree : ¬ S.fixed)
    (hrole : n.standing.role = .leader)
    (hpending : n.membership.pending = none) (change : ServerChange) :
    Permits S ℓ id (.config (n.membership.committed.withChange change)) := by
  intro members hmembers
  refine ⟨hfree, change, ?_⟩
  have hzero := h.tracks.changes_eq_zero hpending
  rw [← membersAfter_take hzero, ← (h.tracks.leader hrole).exact]
  exact (Option.some.inj hmembers).symm

theorem Ready.handled_change (h : Ready S ℓ id n) (hsound : ℓ.Sound S)
    (hfree : ¬ S.fixed) (ticket : ℕ) (change : ServerChange) :
    Handled S ℓ id n (Node.handleChange ticket change) n.log.snapshotIndex
      (fun _ _ => True) False := by
  by_cases htaken : n.standing.role = .leader ∧ n.membership.pending = none ∧
      ¬ n.membership.committed.isUnchangedBy change = true
  · obtain ⟨hrole, hpending, hchange⟩ := htaken
    let members := n.membership.committed.withChange change
    let ℓ' := ℓ.append id (ℓ.nextEntry id (.config members))
    have hleader := h.tracks.leader hrole
    have hsound' : ℓ'.Sound S := hleader.sound_append hsound
      (h.permits_change hfree hrole hpending change)
    have hall := hsound.numbered (hsound.node id).grounded
    have hall' := hsound'.numbered (hsound'.node id).grounded
    let index := (ℓ.log id).length + 1
    let w : Waiter := ⟨n.standing.currentTerm, ticket⟩
    refine ⟨ℓ', commitReached ℓ' id n.membership.committed
      (n.changing index members w (index + 1)).peers n.standing.commitIndex,
      hleader.moves_append hsound _, hsound', fun threshold => ?_⟩
    have hthreshold := h.withThreshold threshold
    unfold Node.handleChange
    rw [Ensures.get_bind_iff]
    refine Ensures.ite (fun hnot => absurd hrole hnot) fun _ => ?_
    refine Ensures.ite (fun hsome => ?_) fun _ => ?_
    · have hnone : n.membership.pending.isSome = true := hsome
      rw [hpending] at hnone
      exact absurd hnone (by simp)
    refine Ensures.ite (fun hsame => absurd hsame hchange) fun _ => ?_
    refine (hthreshold.tracks.ensures_append hall
      (.config members)).andThen_of_succeeds ?_
    rintro _ n' ⟨rfl, j, rfl, hshows, hsame⟩
    have hlast : j.log.lastIndex = index := by
      rw [hshows.log.lastIndex_eq (ℓ.append_log id _ ▸ hall'),
        List.length_append]
      rfl
    have hboundary : j.log.snapshotIndex = n.log.snapshotIndex := hsame.boundary
    have hready : Ready S ℓ' id
        (((n.withThreshold threshold).withJournal j).changing index members w
          (index + 1)) := by
      have happended : Ready S ℓ' id
          { (n.withThreshold threshold).withJournal j with
            membership := n.membership.onAppend index members } :=
        ⟨hthreshold.tracks.append_config hsound hrole hpending
          h.settled.applied hshows hsame, h.settled.applied,
          h.settled.persisted⟩
      exact happended.quiet (quiet_changing _ index members w (Nat.succ_pos _))
    rw [Ensures.modify_bind_iff, ← hboundary]
    change Ensures Node.spread
      (((n.withThreshold threshold).withJournal j).changing index members w
        (j.log.lastIndex + 1)) _ _
    rw [hlast]
    exact (hready.spread hall' hrole).mono (fun _ m hm => ⟨hm, trivial⟩)
      fun _ he => he.elim
  · refine handled_of_rests n.standing.commitIndex hsound fun threshold => ?_
    have hready := h.withThreshold threshold
    unfold Node.handleChange
    rw [Ensures.get_bind_iff]
    refine Ensures.ite (fun _ => hready.reply ticket trivial) fun hrole => ?_
    refine Ensures.ite (fun _ => hready.reply ticket trivial)
      fun hpending => ?_
    refine Ensures.ite (fun _ => hready.reply ticket trivial) fun hchange => ?_
    refine absurd ⟨not_not.mp hrole, ?_, hchange⟩ htaken
    exact Option.not_isSome_iff_eq_none.mp hpending

end Consensus.Node
