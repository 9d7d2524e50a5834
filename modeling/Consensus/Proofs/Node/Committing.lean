import Consensus.Proofs.Majority
import Consensus.Proofs.Node.Unfailing

/-!
# The commit point of a leader

A leader looks at one index only, the highest that a majority holds, and gives up
if the entry there is of an older term.  Nothing is missed by that: an index that
may be committed is not above the one looked at, and since terms rise towards the
current one the entry looked at is of the current term as well.

Once the index is set, everything up to it is applied.  That may fail only where a
write does, and leaves the commit index as it is.
-/

namespace Consensus

/-! ## Terms that rise along a log -/

namespace Log

variable {log : Log} {index later term term' : ℕ}

/-- The terms never fall from one entry to the next. -/
def TermsRise (log : Log) : Prop :=
  log.entries.Pairwise fun a b => a.term ≤ b.term

instance (log : Log) : Decidable log.TermsRise :=
  inferInstanceAs (Decidable (log.entries.Pairwise fun a b => a.term ≤ b.term))

theorem TermsRise.termAt?_le (hrise : log.TermsRise)
    (hlt : log.snapshotIndex < index) (hle : index ≤ later)
    (hterm : log.termAt? index = some term)
    (hterm' : log.termAt? later = some term') : term ≤ term' := by
  rw [termAt?_of_lt hlt] at hterm
  rw [termAt?_of_lt (hlt.trans_le hle)] at hterm'
  obtain ⟨entry, hentry, rfl⟩ := Option.map_eq_some_iff.mp hterm
  obtain ⟨entry', hentry', rfl⟩ := Option.map_eq_some_iff.mp hterm'
  rcases hle.eq_or_lt with rfl | hlater
  · rw [Option.some.inj (hentry.symm.trans hentry')]
  · obtain ⟨hi, rfl⟩ := List.getElem?_eq_some_iff.mp hentry
    obtain ⟨hj, rfl⟩ := List.getElem?_eq_some_iff.mp hentry'
    exact List.pairwise_iff_getElem.mp hrise _ _ hi hj (by omega)

theorem Gapless.termAt?_last (h : log.Gapless)
    (hlt : log.snapshotIndex < log.lastIndex) :
    log.termAt? log.lastIndex = some log.lastTerm := by
  have hlength := h.lastIndex_eq
  rw [termAt?_of_lt hlt, hlength, Nat.add_sub_cancel_left,
    ← List.getLast?_eq_getElem?]
  unfold lastTerm
  cases hlast : log.entries.getLast? with
  | none =>
      rw [List.getLast?_eq_none_iff.mp hlast, List.length_nil] at hlength
      omega
  | some entry => rfl

end Log

namespace Node

variable {σ : Type} {n m : Node σ} {index c : ℕ}

/-! ## What may be committed -/

/-- The committed members that are known to hold the index: the leader if its log
reaches that far, and the peers that it knows to match that far.  Of a peer that is
not tracked nothing is known. -/
def backers (n : Node σ) (index : ℕ) : NodeSet :=
  .ofList (n.membership.committed.toList.filter fun id =>
    if id = n.self then decide (index ≤ n.log.lastIndex)
    else (n.peers.get? id).any fun p => decide (index ≤ p.matchIndex))

theorem mem_backers {id : ℕ} (hpos : 0 < index)
    (hid : id ∈ n.membership.committed) :
    id ∈ n.backers index ↔ index ≤ n.matchIndex id := by
  rw [backers, NodeSet.mem_ofList, List.mem_filter, NodeSet.mem_toList,
    and_iff_right hid, matchIndex]
  split
  · rw [decide_eq_true_eq]
  · cases n.peers.get? id with
    | none => simp [hpos.ne']
    | some p => simp

/-- The index may be committed: it is not yet, the entry there is of the current
term, and those of the committed members that hold it are a quorum. -/
structure Committable (n : Node σ) (index : ℕ) : Prop where
  new : n.standing.commitIndex < index
  held : index ≤ n.log.lastIndex
  current : n.log.termAt? index = some n.standing.currentTerm
  quorum : n.membership.committed.hasQuorum (n.backers index) = true

instance (n : Node σ) (index : ℕ) : Decidable (n.Committable index) :=
  decidable_of_iff
    (n.standing.commitIndex < index ∧ index ≤ n.log.lastIndex ∧
      n.log.termAt? index = some n.standing.currentTerm ∧
      n.membership.committed.hasQuorum (n.backers index) = true)
    ⟨fun ⟨hnew, hheld, hcurrent, hquorum⟩ => ⟨hnew, hheld, hcurrent, hquorum⟩,
      fun h => ⟨h.new, h.held, h.current, h.quorum⟩⟩

/-- The greatest index that may be committed, or if none may, what is committed. -/
def CommitPoint (n : Node σ) (index : ℕ) : Prop :=
  IsGreatest {i | n.Committable i} index ∨
    (∀ i, ¬n.Committable i) ∧ index = n.standing.commitIndex

theorem CommitPoint.unique (h : n.CommitPoint index) (h' : n.CommitPoint c) :
    index = c := by
  rcases h with hgreatest | ⟨hnone, hstays⟩
  · rcases h' with hgreatest' | ⟨hnone', -⟩
    · exact hgreatest.unique hgreatest'
    · exact absurd hgreatest.1 (hnone' index)
  · rcases h' with hgreatest' | ⟨-, hstays'⟩
    · exact absurd hgreatest'.1 (hnone c)
    · rw [hstays, hstays']

/-- A leader that has applied what is committed, with a log that is in order and
peers that hold no more than the leader does. -/
structure Commanding (n : Node σ) : Prop where
  role : n.standing.role = .leader
  gapless : n.log.Gapless
  rises : n.log.TermsRise
  lastTerm_le : n.log.lastTerm ≤ n.standing.currentTerm
  boundary_le : n.log.snapshotIndex ≤ n.standing.lastApplied
  applied : n.standing.lastApplied = n.standing.commitIndex
  matched : n.peers.Every fun p => p.matchIndex ≤ n.log.lastIndex
  members : n.membership.committed ≠ ∅

namespace Commanding

theorem matchIndex_le (h : n.Commanding) (id : ℕ) :
    n.matchIndex id ≤ n.log.lastIndex := by
  unfold matchIndex
  split
  · exact le_rfl
  · cases hpeer : n.peers.get? id with
    | none => exact Nat.zero_le _
    | some p => exact h.matched id p hpeer

theorem majorityIndex_le (h : n.Commanding) :
    n.majorityIndex ≤ n.log.lastIndex :=
  NodeSet.quorumMatch_le h.matchIndex_le

/-- The index that the leader looks at is the greatest that a quorum backs. -/
theorem le_majorityIndex_iff (h : n.Commanding) (hpos : 0 < index) :
    index ≤ n.majorityIndex ↔
      n.membership.committed.hasQuorum (n.backers index) = true :=
  NodeSet.le_quorumMatch_iff_hasQuorum h.members fun _ => mem_backers hpos

/-- No index above the one that the leader looks at may be committed. -/
theorem le_majorityIndex (h : n.Commanding) (hindex : n.Committable index) :
    index ≤ n.majorityIndex :=
  (h.le_majorityIndex_iff (Nat.zero_lt_of_lt hindex.new)).mpr hindex.quorum

theorem boundary_lt (h : n.Commanding)
    (hlt : n.standing.commitIndex < index) : n.log.snapshotIndex < index :=
  (h.boundary_le.trans h.applied.le).trans_lt hlt

/-- If any index may be committed, the entry that the leader looks at is of the
current term. -/
theorem termAt?_majorityIndex (h : n.Commanding)
    (hindex : n.Committable index) :
    n.log.termAt? n.majorityIndex = some n.standing.currentTerm := by
  have hle := h.le_majorityIndex hindex
  have hlt := h.boundary_lt hindex.new
  obtain ⟨entry, hentry⟩ :=
    h.gapless.exists_get? (hlt.trans_le hle) h.majorityIndex_le
  have hterm : n.log.termAt? n.majorityIndex = some entry.term := by
    rw [Log.termAt?_eq_get? (hlt.trans_le hle), hentry]
    rfl
  have hlast := h.gapless.termAt?_last
    ((hlt.trans_le hle).trans_le h.majorityIndex_le)
  -- The term there lies between the current one, found at an index before it, and
  -- the last one, which is not beyond the current one.
  have hlower := h.rises.termAt?_le hlt hle hindex.current hterm
  have hupper := h.rises.termAt?_le (hlt.trans_le hle) h.majorityIndex_le
    hterm hlast
  rw [hterm, le_antisymm (hupper.trans h.lastTerm_le) hlower]

/-- The index that the leader looks at may be committed if it is new and of the
current term. -/
theorem committable_majorityIndex (h : n.Commanding)
    (hnew : n.standing.commitIndex < n.majorityIndex)
    (hterm : n.log.termAt? n.majorityIndex = some n.standing.currentTerm) :
    n.Committable n.majorityIndex where
  new := hnew
  held := h.majorityIndex_le
  current := hterm
  quorum := (h.le_majorityIndex_iff (Nat.zero_lt_of_lt hnew)).mp le_rfl

theorem commitPoint_of_due (h : n.Commanding)
    (hnew : n.standing.commitIndex < n.majorityIndex)
    (hterm : n.log.termAt? n.majorityIndex = some n.standing.currentTerm) :
    n.CommitPoint n.majorityIndex :=
  .inl ⟨h.committable_majorityIndex hnew hterm,
    fun _ hindex => h.le_majorityIndex hindex⟩

theorem commitPoint_of_not_due (h : n.Commanding)
    (hdue : n.majorityIndex ≤ n.standing.commitIndex ∨
      n.log.termAt? n.majorityIndex ≠ some n.standing.currentTerm) :
    n.CommitPoint n.standing.commitIndex := by
  refine .inr ⟨fun index hindex => ?_, rfl⟩
  rcases hdue with hold | hother
  · have hnew := hindex.new
    have hle := h.le_majorityIndex hindex
    omega
  · exact hother (h.termAt?_majorityIndex hindex)

end Commanding

/-! ## Applying leaves the commit index alone -/

variable {W : σ → Prop}

/-- The log and the commit index are as they were, and a disk that worked still
does. -/
structure Unmoved (W : σ → Prop) (n m : Node σ) : Prop where
  log : m.log = n.log
  commit : m.standing.commitIndex = n.standing.commitIndex
  disk : W n.disk → W m.disk

/-- The commit index is as it was, but the disk did not work. -/
structure Halted (W : σ → Prop) (n m : Node σ) : Prop where
  commit : m.standing.commitIndex = n.standing.commitIndex
  disk : ¬W n.disk

theorem Unmoved.trans {k : Node σ} (h : Unmoved W n m) (h' : Unmoved W m k) :
    Unmoved W n k :=
  ⟨h'.log.trans h.log, h'.commit.trans h.commit, fun hn => h'.disk (h.disk hn)⟩

theorem Unmoved.halted {k : Node σ} (h : Unmoved W n m) (h' : Halted W m k) :
    Halted W n k :=
  ⟨h'.commit.trans h.commit, fun hn => h'.disk (h.disk hn)⟩

theorem Aside.unmoved (h : Aside n m) : Unmoved W n m where
  log := h.log
  commit := by rw [h.standing]
  disk hn := h.disk ▸ hn

variable [Storage σ]

theorem ensures_persist (hworks : Storage.Works W) (n : Node σ) :
    Ensures persist n
      (fun _ m => Unmoved W n m ∧ m.standing = n.standing) (Halted W n) := by
  unfold persist
  rw [Ensures.get_bind_iff]
  apply Ensures.ite
  · intro _
    apply Ensures.bind
    apply Ensures.onDisk
    · intro _ disk hrun
      exact ⟨⟨rfl, rfl, fun hn => (hworks.saveHardState _ _ hn).ok hrun⟩, rfl⟩
    · intro _ disk hrun
      exact ⟨rfl, fun hn => (hworks.saveHardState _ _ hn).error hrun⟩
  · intro _
    exact ⟨⟨rfl, rfl, id⟩, rfl⟩

theorem ensures_stepDown (hworks : Storage.Works W) (n : Node σ) (term : ℕ) :
    Ensures (stepDown term) n
      (fun _ m => Unmoved W n m ∧
        m.standing.lastApplied = n.standing.lastApplied) (Halted W n) := by
  have hsame := sameIndices_becomeFollower n term
  have hfollows : Unmoved W n (n.mapStanding (·.becomeFollower term)) :=
    ⟨rfl, hsame.commit, id⟩
  unfold stepDown
  rw [Ensures.get_bind_iff, Ensures.modify_bind_iff]
  refine Ensures.bind ((ensures_persist hworks _).mono ?_
    fun m hm => hfollows.halted hm)
  rintro - m ⟨hm, hstanding⟩
  rw [Ensures.modify_iff]
  have haside := aside_afterRoleChange m n.standing.role
  refine ⟨(hfollows.trans hm).trans haside.unmoved, ?_⟩
  rw [haside.standing, hstanding]
  exact hsame.applied

/-- The entry after the last applied one is applied if the log has it. -/
theorem ensures_applyNext_of_get? (hworks : Storage.Works W) {entry : Entry}
    (hentry : n.log.get? (n.standing.lastApplied + 1) = some entry) :
    Ensures applyNext n
      (fun _ m => Unmoved W n m ∧
        m.standing.lastApplied = n.standing.lastApplied + 1) (Halted W n) := by
  have henacted := enacted_applyEntry n entry (n.standing.lastApplied + 1)
  have happlied : Unmoved W n
      (n.applyEntry entry (n.standing.lastApplied + 1)) :=
    ⟨congrArg Journal.log henacted.journal, by rw [henacted.standing],
      fun hn => (congrArg Journal.disk henacted.journal).symm ▸ hn⟩
  unfold applyNext
  rw [Ensures.get_bind_iff]
  dsimp only
  rw [hentry, Ensures.set_bind_iff, Ensures.get_bind_iff]
  apply Ensures.ite
  · intro _
    have hunled : Unmoved W n
        ((n.applyEntry entry (n.standing.lastApplied + 1)).mapStanding
          fun s => { s with leader := none }) :=
      ⟨happlied.log, happlied.commit, happlied.disk⟩
    rw [Ensures.set_bind_iff]
    refine (ensures_stepDown hworks _ _).mono ?_ fun m hm => hunled.halted hm
    rintro - m ⟨hm, hindex⟩
    refine ⟨hunled.trans hm, ?_⟩
    rw [hindex, mapStanding, henacted.standing]
  · intro _
    rw [Ensures.pure_iff]
    refine ⟨happlied, ?_⟩
    rw [henacted.standing]

theorem ensures_applyMany_of_gapless (hworks : Storage.Works W) (count : ℕ)
    (hgapless : n.log.Gapless)
    (hboundary : n.log.snapshotIndex ≤ n.standing.lastApplied)
    (hlast : n.standing.lastApplied + count ≤ n.log.lastIndex) :
    Ensures (applyMany count) n
      (fun _ m => Unmoved W n m ∧
        m.standing.lastApplied = n.standing.lastApplied + count)
      (Halted W n) := by
  induction count generalizing n with
  | zero => exact ⟨⟨rfl, rfl, id⟩, rfl⟩
  | succ count ih =>
      obtain ⟨entry, hentry⟩ := hgapless.exists_get?
        (Nat.lt_succ_of_le hboundary) (by omega)
      refine Ensures.bind ((ensures_applyNext_of_get? hworks hentry).imp ?_)
      rintro - m ⟨hm, happlied⟩
      -- The log is the same after each step, so the next entry is in it again.
      refine (ih (n := m) ?_ ?_ ?_).mono ?_ fun k hk => hm.halted hk
      · exact hm.log ▸ hgapless
      · rw [hm.log]
        omega
      · rw [hm.log]
        omega
      · rintro - k ⟨hk, hcount⟩
        exact ⟨hm.trans hk, by omega⟩

/-- A long log is compacted up to what is applied. -/
theorem ensures_compactIfLong (hworks : Storage.Works W)
    (hgapless : n.log.Gapless)
    (hlast : n.standing.lastApplied ≤ n.log.lastIndex) :
    Ensures compactIfLong n (fun _ m => m.standing = n.standing)
      (Halted W n) := by
  unfold compactIfLong
  rw [Ensures.get_bind_iff]
  refine Ensures.ite (fun _ => rfl) fun hdue => ?_
  have hnew : n.log.snapshotIndex < n.standing.lastApplied :=
    not_le.mp fun h => hdue (Or.inr h)
  cases hterm : n.log.termAt? n.standing.lastApplied with
  | none =>
      have hend := hgapless.lastIndex_lt_of_termAt? hnew.le hterm
      omega
  | some term =>
      refine Ensures.bind (Ensures.onDisk (fun _ disk hrun => ?_)
        fun _ disk hrun => ?_)
      · refine Ensures.onJournal (fun _ j _ => rfl) fun _ j hcut => ⟨rfl, ?_⟩
        intro hn
        exact (Journal.leaves_compactTo hworks.entries _ _ ⟨n.log, disk⟩
          ((hworks.saveSnapshot _ _ hn).ok hrun)).error hcut
      · exact ⟨rfl, fun hn => (hworks.saveSnapshot _ _ hn).error hrun⟩

/-- What is committed is applied; the commit index stays where it is. -/
theorem ensures_applyCommitted (hworks : Storage.Works W)
    (hgapless : n.log.Gapless)
    (hboundary : n.log.snapshotIndex ≤ n.standing.lastApplied)
    (happlied : n.standing.lastApplied ≤ n.standing.commitIndex)
    (hcommit : n.standing.commitIndex ≤ n.log.lastIndex) :
    Ensures applyCommitted n
      (fun _ m => m.standing.commitIndex = n.standing.commitIndex ∧
        m.standing.lastApplied = n.standing.commitIndex) (Halted W n) := by
  unfold applyCommitted
  rw [Ensures.get_bind_iff]
  refine Ensures.bind ((ensures_applyMany_of_gapless hworks _ hgapless hboundary
    (by omega)).imp ?_)
  rintro - m ⟨hm, hindex⟩
  have hannounced : Unmoved W n (m.emit (.announce m.standing.lastApplied)) :=
    ⟨hm.log, hm.commit, hm.disk⟩
  rw [Ensures.modify_bind_iff]
  refine (ensures_compactIfLong hworks ?_ ?_).mono ?_
    fun k hk => hannounced.halted hk
  · exact hannounced.log ▸ hgapless
  · rw [hannounced.log]
    change m.standing.lastApplied ≤ n.log.lastIndex
    omega
  · intro _ k hk
    rw [hk]
    change m.standing.commitIndex = _ ∧ m.standing.lastApplied = _
    have := hm.commit
    omega

/-! ## The leader finds the commit point -/

/-- A kind to which no disk belongs. -/
theorem works_never : Storage.Works fun _ : σ => False where
  entries := ⟨fun _ _ h => h.elim, fun _ _ h => h.elim, fun _ _ h => h.elim⟩
  saveHardState _ _ h := h.elim
  saveSnapshot _ _ h := h.elim

/-- A leader in command sets its commit index to the commit point, and on a disk
that works it applies everything up to there. -/
theorem Commanding.ensures_advanceCommit (h : n.Commanding)
    (hworks : Storage.Works W) :
    Ensures advanceCommit n
      (fun _ m => n.CommitPoint m.standing.commitIndex ∧
        m.standing.lastApplied = m.standing.commitIndex)
      fun m => n.CommitPoint m.standing.commitIndex ∧ ¬W n.disk := by
  unfold advanceCommit
  rw [Ensures.get_bind_iff]
  refine Ensures.ite (fun hrole => absurd h.role hrole) fun _ => ?_
  refine Ensures.ite (fun hnot => ?_) fun hdue => ?_
  · exact ⟨h.commitPoint_of_not_due hnot, h.applied⟩
  · obtain ⟨hnew, hterm⟩ := not_or.mp hdue
    have hpoint := h.commitPoint_of_due (not_le.mp hnew) (not_not.mp hterm)
    have hle : n.standing.lastApplied ≤ n.majorityIndex :=
      h.applied.le.trans (not_le.mp hnew).le
    rw [Ensures.set_bind_iff]
    refine (ensures_applyCommitted (n := n.mapStanding fun s =>
      { s with commitIndex := n.majorityIndex }) hworks h.gapless h.boundary_le
        hle h.majorityIndex_le).mono ?_ ?_
    · rintro - m ⟨hcommit, happlied⟩
      rw [happlied, hcommit]
      exact ⟨hpoint, rfl⟩
    · intro m hm
      rw [hm.commit]
      exact ⟨hpoint, hm.disk⟩

/-- The commit point is what a leader finds.  Whether the disk works or not, its
commit index becomes the greatest index that holds an entry of the current term
and is held by a quorum of the committed members, or stays if there is none that
is new.  If the disk works, advancing succeeds and applies all of it. -/
theorem Commanding.advances_to_commitPoint (h : n.Commanding) :
    n.CommitPoint (outcome advanceCommit n).2.standing.commitIndex ∧
      ∀ W : σ → Prop, Storage.Works W → W n.disk →
        (outcome advanceCommit n).1 = .ok () ∧
          (outcome advanceCommit n).2.standing.lastApplied =
            (outcome advanceCommit n).2.standing.commitIndex := by
  unfold outcome
  cases hrun : advanceCommit n with
  | ok a m =>
      refine ⟨((h.ensures_advanceCommit works_never).ok hrun).1, ?_⟩
      intro W hworks _
      exact ⟨rfl, ((h.ensures_advanceCommit hworks).ok hrun).2⟩
  | error e m =>
      refine ⟨((h.ensures_advanceCommit works_never).error hrun).1, ?_⟩
      intro W hworks hdisk
      exact absurd hdisk ((h.ensures_advanceCommit hworks).error hrun).2

/-- The leader of three in its second term.  The first entry is of an older term;
one peer holds two of the three entries, and about the other nothing is known. -/
def secondTermLeader : Node Memory where
  log := ⟨[⟨1, 1, .noop⟩, ⟨2, 2, .noop⟩, ⟨2, 3, .command [7]⟩], 0, 0⟩
  disk := {}
  standing := { currentTerm := 2, role := .leader, leader := some 1 }
  settings := {}
  membership := .settled (.ofList [1, 2, 3])
  peers := (∅ : Table Progress).insert 2 ⟨3, 2, false⟩
  commandWaiters := ∅
  changeWaiters := ∅
  persisted := {}
  recorder := {}
  effects := []

theorem commanding_secondTermLeader : secondTermLeader.Commanding where
  role := rfl
  gapless := .cons rfl (.cons rfl (.cons rfl (.nil 3)))
  rises := by decide
  lastTerm_le := by decide
  boundary_le := by decide
  applied := rfl
  matched := Table.every_empty.insert 2 (by decide)
  members := by decide

/-- The leader commits, with the entry of its own term, the older one before it. -/
theorem secondTermLeader_commits_two :
    secondTermLeader.Commanding ∧
      (outcome advanceCommit secondTermLeader).1 = .ok () ∧
      (outcome advanceCommit secondTermLeader).2.standing.commitIndex = 2 ∧
      (outcome advanceCommit secondTermLeader).2.standing.lastApplied = 2 := by
  obtain ⟨hpoint, hworking⟩ :=
    commanding_secondTermLeader.advances_to_commitPoint
  obtain ⟨hok, happlied⟩ := hworking Memory.Clean works_clean ⟨rfl, rfl⟩
  have htwo : secondTermLeader.CommitPoint 2 := by
    refine .inl ⟨by decide, fun index hindex => ?_⟩
    by_contra hgreater
    have hle : index ≤ 3 := hindex.held
    obtain rfl : index = 3 := by omega
    exact absurd hindex (by decide)
  have hcommit := hpoint.unique htwo
  exact ⟨commanding_secondTermLeader, hok, hcommit, happlied.trans hcommit⟩

end Node

end Consensus
