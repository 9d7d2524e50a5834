import Consensus.Proofs.Chronicle
import Consensus.Proofs.Node.Attending

/-!
# A node without peers

A node that is the only member of its cluster is a majority on its own.  It is elected
whenever it stands for election, and what it appends as a leader is committed at once:
its log is always the most complete one, and nobody can disagree with it.

So when it is elected it applies whatever its log still has, and the entry that it
appends then.  A command that it is given afterwards is answered before it does
anything else.
-/

namespace Consensus.Node

variable {σ : Type} {Holds : σ → Stored → Prop} {id : ℕ} {all all' : List Entry}
  {n n' : Node σ}

/-- At any moment: the node has the one member, itself, and its log and its disk are
told from the list of all entries. -/
structure Sole (Holds : σ → Stored → Prop) (id : ℕ) (all : List Entry) (n : Node σ) :
    Prop where
  self : n.self = id
  membership : n.membership = .settled (.single id)
  peers : n.peers = ∅
  changeWaiters : n.changeWaiters = ∅
  vote : ∀ other, n.standing.votedFor = some other → other = id
  tells : n.toJournal.Tells Holds id all n.persisted
  within : n.log.Within n.standing.currentTerm
  boundary_le : n.log.snapshotIndex ≤ n.standing.lastApplied
  applied_le : n.standing.lastApplied ≤ all.length
  record : n.recorder.record = recordAfter (all.take n.standing.lastApplied)

theorem applyEntry_peers (n : Node σ) {entry : Entry} (hplain : entry.config? = none)
    (index : ℕ) : (n.applyEntry entry index).peers = n.peers := by
  have henact : (n.enact entry index).peers = n.peers := by
    unfold enact
    unfold Entry.config? at hplain
    cases hpayload : entry.payload with
    | noop => rfl
    | command bytes => rfl
    | config members =>
        rw [hpayload] at hplain
        exact absurd hplain (by simp)
  have hcommand : ∀ m : Node σ, (m.answerCommand index entry.term).peers = m.peers := by
    intro m
    unfold answerCommand
    split <;> rfl
  have hchange : ∀ m : Node σ, (m.answerChange index entry.term).peers = m.peers := by
    intro m
    unfold answerChange
    split <;> rfl
  unfold applyEntry
  rw [answerWaiters_eq, hchange, hcommand]
  exact henact

namespace Sole

theorem member (h : Sole Holds id all n) : n.self ∈ n.membership.committed := by
  rw [h.self, h.membership]
  exact NodeSet.mem_single id

/-- What is not applied is found in the list. -/
theorem get? (h : Sole Holds id all n) {index : ℕ}
    (hlt : n.standing.lastApplied < index) : n.log.get? index = all[index - 1]? := by
  obtain ⟨s, hchronicle⟩ := h.tells.chronicle
  exact Log.get?_of_drop hchronicle.drop (h.boundary_le.trans_lt hlt)

/-- Effects and callers of commands do not matter. -/
theorem of_same (h : Sole Holds id all n) (hsettings : n'.settings = n.settings)
    (hmembership : n'.membership = n.membership) (hpeers : n'.peers = ∅)
    (hwaiters : n'.changeWaiters = ∅) (hreplica : n'.toReplica = n.toReplica)
    (hpersisted : n'.persisted = n.persisted) (hrecorder : n'.recorder = n.recorder) :
    Sole Holds id all n' := by
  have hjournal := congrArg Replica.toJournal hreplica
  have hlog := congrArg Journal.log hjournal
  have hstanding := congrArg Replica.standing hreplica
  constructor
  · exact (congrArg Settings.nodeId hsettings).trans h.self
  · exact hmembership.trans h.membership
  · exact hpeers
  · exact hwaiters
  · rw [hstanding]
    exact h.vote
  · rw [hjournal, hpersisted]
    exact h.tells
  · rw [hlog, hstanding]
    exact h.within
  · rw [hlog, hstanding]
    exact h.boundary_le
  · rw [hstanding]
    exact h.applied_le
  · rw [hrecorder, hstanding]
    exact h.record

theorem aside (h : Sole Holds id all n) (haside : Aside n n') (hpeers : n'.peers = ∅)
    (hwaiters : n'.changeWaiters = ∅) : Sole Holds id all n' :=
  h.of_same haside.settings haside.membership hpeers hwaiters haside.replica
    haside.persisted haside.recorder

/-- The node may stand elsewhere, in a term that is not behind. -/
theorem stands (h : Sole Holds id all n) {s : Standing}
    (hvote : ∀ other, s.votedFor = some other → other = id)
    (hterm : n.standing.currentTerm ≤ s.currentTerm)
    (happlied : s.lastApplied = n.standing.lastApplied) :
    Sole Holds id all { n with standing := s } := by
  constructor
  · exact h.self
  · exact h.membership
  · exact h.peers
  · exact h.changeWaiters
  · exact hvote
  · exact h.tells
  · exact h.within.mono hterm
  · rw [happlied]
    exact h.boundary_le
  · rw [happlied]
    exact h.applied_le
  · rw [happlied]
    exact h.record

/-- The log may become another one, if its snapshot covers no more than what is applied,
and all entries so far are kept. -/
theorem withJournal (h : Sole Holds id all n) {j : Journal σ}
    (htells : j.Tells Holds id all' n.persisted)
    (hwithin : j.log.Within n.standing.currentTerm)
    (hboundary : j.log.snapshotIndex ≤ n.standing.lastApplied)
    (hgrows : all <+: all') :
    Sole Holds id all' { n with toJournal := j } := by
  constructor
  · exact h.self
  · exact h.membership
  · exact h.peers
  · exact h.changeWaiters
  · exact h.vote
  · exact htells
  · exact hwithin
  · exact hboundary
  · exact h.applied_le.trans hgrows.length_le
  · change n.recorder.record = _
    rw [take_eq_of_isPrefix hgrows h.applied_le]
    exact h.record

theorem afterRoleChange (h : Sole Holds id all n) (before : Role) :
    Sole Holds id all (n.afterRoleChange before) := by
  apply h.aside (aside_afterRoleChange n before)
  · unfold Node.afterRoleChange
    split
    · exact h.peers
    · rfl
  · rw [changeWaiters_afterRoleChange]
    split
    · exact h.changeWaiters
    · rfl

theorem crowned (h : Sole Holds id all n) : Sole Holds id all n.crowned := by
  have hleads : Sole Holds id all (n.mapStanding (·.becomeLeader n.self)) :=
    h.stands h.vote le_rfl rfl
  have htargets : (n.mapStanding (·.becomeLeader n.self)).targets = ∅ := by
    change n.membership.replicationTargets n.self = ∅
    rw [h.membership, h.self]
    exact NodeSet.erase_single id
  apply hleads.aside n.aside_crowned
  · unfold Node.crowned
    dsimp only
    rw [htargets]
    rfl
  · exact h.changeWaiters

/-! ## Applying -/

/-- The next entry is applied. -/
theorem applied (h : Sole Holds id all n) {entry : Entry}
    (hentry : all[n.standing.lastApplied]? = some entry) :
    Sole Holds id all (n.applyEntry entry (n.standing.lastApplied + 1)) := by
  obtain ⟨s, hchronicle⟩ := h.tells.chronicle
  have hplain : entry.config? = none :=
    hchronicle.plain entry (List.mem_of_getElem? hentry)
  have hindex := hchronicle.numbered _ entry hentry
  have henacted := enacted_applyEntry n entry (n.standing.lastApplied + 1)
  have hpeers := applyEntry_peers n hplain (n.standing.lastApplied + 1)
  have hmembership := membership_applyEntry n entry (n.standing.lastApplied + 1)
  obtain ⟨-, hwaiters⟩ := n.applyEntry_waiters entry (n.standing.lastApplied + 1)
  obtain ⟨-, hrecorder⟩ := consumes_applyEntry n hindex
  rw [hplain] at hmembership
  generalize n.applyEntry entry (n.standing.lastApplied + 1) = n' at *
  have hjournal := henacted.journal
  have hlog := congrArg Journal.log hjournal
  have hstanding := henacted.standing
  constructor
  · exact (congrArg Settings.nodeId henacted.settings).trans h.self
  · exact hmembership.trans h.membership
  · exact hpeers.trans h.peers
  · rw [hwaiters, h.changeWaiters]
    rfl
  · rw [hstanding]
    exact h.vote
  · rw [hjournal, henacted.persisted]
    exact h.tells
  · rw [hlog, hstanding]
    exact h.within
  · rw [hlog, hstanding]
    exact h.boundary_le.trans (Nat.le_succ _)
  · rw [hstanding]
    exact (List.getElem?_eq_some_iff.mp hentry).1
  · rw [hstanding, hrecorder]
    exact (Recorder.record_takes_call? hchronicle.numbered hentry h.record).1

variable [Storage σ]

/-- It does not step down: it stays a member. -/
theorem applyNext_eq (h : Sole Holds id all n) {entry : Entry}
    (hentry : all[n.standing.lastApplied]? = some entry) :
    applyNext n = .ok () (n.applyEntry entry (n.standing.lastApplied + 1)) := by
  have hmember := (h.applied hentry).member
  have hget : n.log.get? (n.standing.lastApplied + 1) = some entry :=
    (h.get? (Nat.lt_succ_self _)).trans hentry
  have hstays : Ensures applyNext n
      (fun _ n' => n' = n.applyEntry entry (n.standing.lastApplied + 1))
      fun _ => False := by
    unfold applyNext
    rw [Ensures.get_bind_iff]
    dsimp only
    rw [hget]
    dsimp only
    rw [Ensures.set_bind_iff, Ensures.get_bind_iff]
    exact Ensures.ite (fun hout => absurd hmember hout.2) fun _ => rfl
  cases hrun : applyNext n with
  | ok a n' => rw [hstays.ok hrun]
  | error e n' => exact (hstays.error hrun).elim

/-- Entries that nobody waits for are applied one after another. -/
theorem ensures_applyMany (h : Sole Holds id all n) (hnone : n.commandWaiters = ∅)
    {count : ℕ} (hcount : n.standing.lastApplied + count ≤ all.length) :
    Ensures (applyMany count) n
      (fun _ n' => Sole Holds id all n' ∧ n'.persisted = n.persisted ∧
        n'.commandWaiters = ∅ ∧ n'.standing =
          { n.standing with lastApplied := n.standing.lastApplied + count })
      fun _ => False := by
  induction count generalizing n with
  | zero => exact ⟨h, rfl, hnone, rfl⟩
  | succ count ih =>
      have hlt : n.standing.lastApplied < all.length := by omega
      have hentry := List.getElem?_eq_getElem hlt
      have henacted :=
        enacted_applyEntry n all[n.standing.lastApplied] (n.standing.lastApplied + 1)
      obtain ⟨hwaiters, -⟩ := n.applyEntry_waiters all[n.standing.lastApplied]
        (n.standing.lastApplied + 1)
      have hstanding := henacted.standing
      have happlied := congrArg Standing.lastApplied hstanding
      change _ = n.standing.lastApplied + 1 at happlied
      refine Ensures.bind_of_ok (h.applyNext_eq hentry)
        ((ih (h.applied hentry) ?_ ?_).imp ?_)
      · rw [hwaiters, hnone]
        rfl
      · omega
      · rintro - n' ⟨hsole, hpersisted, hnone', hstanding'⟩
        refine ⟨hsole, hpersisted.trans henacted.persisted, hnone', ?_⟩
        rw [hstanding', happlied, hstanding, Nat.add_right_comm, Nat.add_assoc]

/-! ## Compacting -/

section

variable (hretains : Storage.Retains Holds IsWord False) (hid : IsWord id)
include hretains hid

/-- The snapshot is one of what is applied. -/
theorem ensures_compactIfLong (h : Sole Holds id all n)
    (hterm : IsWord n.standing.currentTerm) (hlength : IsWord all.length) :
    Ensures compactIfLong n
      (fun _ n' => Sole Holds id all n' ∧ ∃ j, n' = { n with toJournal := j })
      fun _ => False := by
  obtain ⟨s, hchronicle⟩ := h.tells.chronicle
  have hlast : n.standing.lastApplied ≤ n.log.lastIndex :=
    h.tells.lastIndex_eq ▸ h.applied_le
  unfold compactIfLong
  rw [Ensures.get_bind_iff]
  refine Ensures.ite (fun _ => ⟨h, n.toJournal, rfl⟩) fun hdue => ?_
  have hlt : n.log.snapshotIndex < n.standing.lastApplied :=
    not_le.mp fun hle => hdue (Or.inr hle)
  obtain ⟨term, hfound⟩ : ∃ term, n.log.termAt? n.standing.lastApplied = some term :=
    ⟨_, hchronicle.sound.termAt?_eq hlt.le hlast⟩
  have hle := hchronicle.sound.termAt?_le h.within hfound
  have hmembers : n.membership.committed = .single id :=
    congrArg Membership.committed h.membership
  have hfits : Snapshot.Fits IsWord (n.ownSnapshot term) := by
    refine ⟨hlength.of_le h.applied_le, hterm.of_le hle, fun other hother => ?_⟩
    change other ∈ n.membership.committed.toList at hother
    rw [hmembers, NodeSet.toList_single, List.mem_singleton] at hother
    exact hother ▸ hid
  have hcompacted : Ensures (Storage.saveSnapshot (n.ownSnapshot term)) n.disk _ _ :=
    h.tells.compacted hretains hlt h.applied_le hfound hmembers
      (congrArg Record.encode h.record) hfits
  rw [hfound]
  refine Ensures.bind (Ensures.onDisk (fun _ disk hsaved => ?_)
    fun e disk hrun => hcompacted.error hrun)
  refine Ensures.onJournal (fun _ j hrun => ?_)
    fun e j hrun => (hcompacted.ok hsaved).error hrun
  obtain ⟨hlog, htells⟩ := (hcompacted.ok hsaved).ok hrun
  have hwithin : j.log.Within n.standing.currentTerm := by
    rw [hlog]
    exact ⟨hle, fun entry hentry => h.within.entries entry (List.mem_of_mem_drop hentry)⟩
  have hboundary : j.log.snapshotIndex ≤ n.standing.lastApplied := by
    rw [hlog]
    exact le_rfl
  exact ⟨h.withJournal htells hwithin hboundary List.prefix_rfl, j, rfl⟩

/-- Once everything is applied, that is told and the log may be compacted. -/
theorem ensures_conclude (h : Sole Holds id all n)
    (hterm : IsWord n.standing.currentTerm) (hlength : IsWord all.length) :
    Ensures (do
        modify fun n => n.emit (.announce n.standing.lastApplied)
        compactIfLong : Act σ Unit) n
      (fun _ n' => Sole Holds id all n' ∧ ∃ j,
        n' = { n.emit (.announce n.standing.lastApplied) with toJournal := j })
      fun _ => False := by
  have hannounced : Sole Holds id all (n.emit (.announce n.standing.lastApplied)) :=
    h.of_same rfl rfl h.peers h.changeWaiters rfl rfl rfl
  rw [Ensures.modify_bind_iff]
  exact hannounced.ensures_compactIfLong hretains hid hterm hlength

/-! ## Leading -/

omit hid in
/-- A new entry comes at the end. -/
theorem ensures_append (h : Sole Holds id all n) {payload : Payload}
    (hplain : Entry.config? ⟨n.standing.currentTerm, all.length + 1, payload⟩ = none)
    (hterm : IsWord n.standing.currentTerm) (hlength : IsWord (all.length + 1)) :
    Ensures (onJournal (Journal.append n.standing.currentTerm payload)) n
      (fun index n' => index = all.length + 1 ∧
        Sole Holds id (all ++ [⟨n.standing.currentTerm, index, payload⟩]) n' ∧
        n'.log.lastTerm = n.standing.currentTerm ∧ ∃ j, n' = { n with toJournal := j })
      fun _ => False := by
  have happends := h.tells.append hretains hplain h.within hterm hlength
  refine Ensures.onJournal (fun index j hrun => ?_) fun e j hrun => happends.error hrun
  obtain ⟨rfl, hlog, htells⟩ := happends.ok hrun
  have hwithin : j.log.Within n.standing.currentTerm := by
    rw [hlog]
    refine ⟨h.within.boundary, fun entry hentry => ?_⟩
    rcases List.mem_append.mp hentry with hold | hnew
    · exact h.within.entries entry hold
    · rw [List.mem_singleton.mp hnew]
  have hboundary : j.log.snapshotIndex ≤ n.standing.lastApplied := by
    rw [hlog]
    exact h.boundary_le
  refine ⟨rfl, h.withJournal htells hwithin hboundary (List.prefix_append _ _), ?_, j,
    rfl⟩
  change j.log.lastTerm = _
  rw [hlog]
  unfold Log.lastTerm Log.push
  rw [List.getLast?_concat]

end

/-- A leader commits all that it has, once the last of it is of its own term. -/
theorem ensures_advanceCommit (h : Sole Holds id all n)
    (hrole : n.standing.role = .leader) (hmore : n.standing.commitIndex < all.length)
    (hlast : n.log.lastTerm = n.standing.currentTerm) {Q : Unit → Node σ → Prop}
    {E : Node σ → Prop} (hnext : Ensures applyCommitted
      (n.mapStanding fun s => { s with commitIndex := all.length }) Q E) :
    Ensures advanceCommit n Q E := by
  obtain ⟨s, hchronicle⟩ := h.tells.chronicle
  have hlength := hchronicle.lastIndex_eq
  have hmajority : n.majorityIndex = all.length := by
    unfold majorityIndex
    rw [h.membership]
    change (NodeSet.single id).quorumMatch n.matchIndex = _
    rw [NodeSet.quorumMatch_single]
    unfold matchIndex
    rw [if_pos h.self.symm, hlength]
  have hterm : n.log.termAt? all.length = some n.standing.currentTerm := by
    rw [← hlength, hchronicle.sound.termAt?_lastIndex, hlast]
  unfold advanceCommit
  rw [Ensures.get_bind_iff]
  refine Ensures.ite (fun hnot => absurd hrole hnot) fun _ => ?_
  dsimp only
  rw [hmajority]
  refine Ensures.ite (fun hor => ?_) fun _ => hnext
  rcases hor with hle | hne
  · exact absurd hmore hle.not_gt
  · exact absurd hterm hne

/-- There is nobody to send anything to. -/
theorem replicateAll_eq (h : Sole Holds id all n) : replicateAll n = .ok () n := by
  have hstays : Ensures replicateAll n (fun _ n' => n' = n) fun _ => False := by
    unfold replicateAll
    rw [Ensures.get_bind_iff, h.peers]
    exact Ensures.ite (fun _ => rfl) fun _ => rfl
  cases hrun : replicateAll n with
  | ok a n' => rw [hstays.ok hrun]
  | error e n' => exact (hstays.error hrun).elim

end Sole

end Consensus.Node
