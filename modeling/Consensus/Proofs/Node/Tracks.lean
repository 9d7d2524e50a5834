import Consensus.Node.Basic
import Consensus.Proofs.Backing

/-!
# A node and its part of the ledger

A node tracks the ledger if all that it knows is there: its term and vote, its
log, what it knows to be committed, the votes it counts and what it believes
its peers to hold.  Each handler is shown to lead from a node that tracks a
ledger to a node that tracks a ledger grown by that node's own doing.

Much of what a handler does concerns callers, timers and replicators.  None of
it matters here, and `Quiet` collects what it leaves alone.
-/

namespace Consensus.Node

variable {S : Scope} {ℓ ℓ' : Ledger} {id : ℕ} {n n' n'' : Node Memory}

/-! ## The invariant -/

/-- The peer is not believed to hold more than it does. -/
structure Holds (ℓ : Ledger) (term peer : ℕ) (p : Progress) : Prop where
  matchIndex_le : p.matchIndex ≤ ℓ.held peer term
  nextIndex_pos : 0 < p.nextIndex

/-- A leader's view of its peers is backed by what they acknowledged. -/
def PeersHold (ℓ : Ledger) (term : ℕ) (peers : Table Progress) : Prop :=
  ∀ peer p, peers.get? peer = some p → Holds ℓ term peer p

/-- Nothing is said that the ledger does not bear out. -/
def Truthful (S : Scope) (ℓ : Ledger) (id applied : ℕ)
    (effects : List Effect) : Prop :=
  ∀ effect ∈ effects, effect.Backed S ℓ id applied

theorem PeersHold.mono {term : ℕ} {peers : Table Progress}
    (h : PeersHold ℓ term peers) (hgrows : ℓ.Grows ℓ') :
    PeersHold ℓ' term peers :=
  fun peer p hp => ⟨(h peer p hp).matchIndex_le.trans (hgrows.held_le _ _),
    (h peer p hp).nextIndex_pos⟩

theorem Truthful.mono {effects : List Effect} {applied applied' : ℕ}
    (h : Truthful S ℓ id applied effects) (hgrows : ℓ.Grows ℓ')
    (hle : applied ≤ applied') : Truthful S ℓ' id applied' effects :=
  fun effect heffect => (h effect heffect).mono hgrows hle

/-- What a candidate can rely on, by its members and where it stands. -/
structure Candidate (S : Scope) (ℓ : Ledger) (id : ℕ) (members : NodeSet)
    (s : Standing) : Prop where
  stood : ℓ.candidacy id (ℓ.term id) = some ⟨ℓ.log id, s.commitIndex⟩
  exact : members = membersAfter S.members ((ℓ.log id).take s.commitIndex)
  votes : ∀ voter ∈ s.votes, ℓ.vote voter (ℓ.term id) = some id
  fresh : ∀ e, ℓ.election (ℓ.term id) = some e → e.leader ≠ id

/-- What a leader can rely on, by its members, its peers and what it applied. -/
structure Leader (S : Scope) (ℓ : Ledger) (id : ℕ) (members : NodeSet)
    (peers : Table Progress) (applied : ℕ) : Prop where
  elected : ∃ e, ℓ.election (ℓ.term id) = some e ∧ e.leader = id
  lead : ℓ.lead (ℓ.term id) = ℓ.log id
  held : (ℓ.log id).length ≤ ℓ.held id (ℓ.term id)
  exact : members = membersAfter S.members ((ℓ.log id).take applied)
  peers : PeersHold ℓ (ℓ.term id) peers

/-- The node is where the ledger says. -/
structure Tracks (S : Scope) (ℓ : Ledger) (id : ℕ) (n : Node Memory) :
    Prop where
  self : n.self = id
  term : n.standing.currentTerm = ℓ.term id
  vote : n.standing.votedFor = ℓ.vote id (ℓ.term id)
  journal : n.toJournal.Shows S (ℓ.log id)
  saved : n.disk.hardState = n.persisted
  boundary_le : n.log.snapshotIndex ≤ n.standing.lastApplied
  applied_le : n.standing.lastApplied ≤ n.standing.commitIndex
  commit_le : n.standing.commitIndex ≤ (ℓ.log id).length
  settled : ℓ.Settled S (ℓ.term id + 1)
    ((ℓ.log id).take n.standing.commitIndex)
  pending : changes ((ℓ.log id).drop n.standing.commitIndex) ≤ 1
  record : n.recorder.record =
    recordAfter ((ℓ.log id).take n.standing.lastApplied)
  members : n.membership.committed =
      membersAfter S.members ((ℓ.log id).take n.standing.lastApplied) ∨
    n.membership.committed = ∅
  noticed : ∀ entry ∈ (ℓ.log id).drop n.standing.lastApplied,
    entry.config?.isSome → ∃ change, n.membership.pending = some change ∧
      entry.index ≤ change.1
  candidate : n.standing.role = .candidate →
    Candidate S ℓ id n.membership.committed n.standing
  leader : n.standing.role = .leader →
    Leader S ℓ id n.membership.committed n.peers n.standing.lastApplied
  truthful : Truthful S ℓ id n.standing.lastApplied n.effects

/-- Between events everything committed is applied, and term and vote are
stored. -/
structure Settled (n : Node Memory) : Prop where
  applied : n.standing.lastApplied = n.standing.commitIndex
  persisted : n.persisted = n.standing.hardState

theorem Tracks.boundary_le_length (h : Tracks S ℓ id n) :
    n.log.snapshotIndex ≤ (ℓ.log id).length :=
  h.journal.log.boundary_le

theorem Tracks.applied_le_length (h : Tracks S ℓ id n) :
    n.standing.lastApplied ≤ (ℓ.log id).length :=
  h.applied_le.trans h.commit_le

/-- The record ends where the last command was applied. -/
theorem Tracks.recorded_le (h : Tracks S ℓ id n) (hall : Numbered (ℓ.log id)) :
    n.recorder.record.lastApplied ≤ n.standing.lastApplied := by
  have hle := recordAfter_lastApplied_le
    (hall.of_isPrefix (List.take_prefix n.standing.lastApplied _))
  rw [← h.record, List.length_take] at hle
  exact hle.trans (min_le_left _ _)

theorem Tracks.applied_settled (h : Tracks S ℓ id n) :
    ℓ.Settled S (ℓ.term id + 1)
      ((ℓ.log id).take n.standing.lastApplied) :=
  h.settled.of_isPrefix (List.take_prefix_take_left h.applied_le)

/-- A candidacy stays what it is as long as its node stays where it is. -/
theorem Candidate.mono {members : NodeSet} {s : Standing}
    (h : Candidate S ℓ id members s) (hgrows : ℓ.Grows ℓ')
    (hterm : ℓ'.term id = ℓ.term id) (hlog : ℓ'.log id = ℓ.log id)
    (helection : ∀ e, ℓ'.election (ℓ.term id) = some e → e.leader = id →
      ℓ.election (ℓ.term id) = some e) : Candidate S ℓ' id members s where
  stood := by
    rw [hterm, hlog]
    exact hgrows.candidacy _ _ _ h.stood
  exact := by
    rw [hlog]
    exact h.exact
  votes := by
    rw [hterm]
    exact fun voter hvoter => hgrows.vote _ _ _ (h.votes voter hvoter)
  fresh := by
    rw [hterm]
    exact fun e he hleader => h.fresh e (helection e he hleader) hleader

/-- So does a leadership. -/
theorem Leader.mono {members : NodeSet} {peers : Table Progress} {applied : ℕ}
    (h : Leader S ℓ id members peers applied) (hgrows : ℓ.Grows ℓ')
    (hterm : ℓ'.term id = ℓ.term id) (hlog : ℓ'.log id = ℓ.log id)
    (hlead : ℓ'.lead (ℓ.term id) = ℓ.lead (ℓ.term id)) :
    Leader S ℓ' id members peers applied where
  elected := by
    obtain ⟨e, he, hleader⟩ := h.elected
    rw [hterm]
    exact ⟨e, hgrows.election _ e he, hleader⟩
  lead := by
    rw [hterm, hlog, hlead]
    exact h.lead
  held := by
    rw [hterm, hlog]
    exact h.held.trans (hgrows.held_le _ _)
  exact := by
    rw [hlog]
    exact h.exact
  peers := by
    rw [hterm]
    exact h.peers.mono hgrows

/-- A ledger that says the same of the node and its term may say more of all
else. -/
theorem Tracks.grow (h : Tracks S ℓ id n) (hgrows : ℓ.Grows ℓ')
    (hterm : ℓ'.term id = ℓ.term id) (hlog : ℓ'.log id = ℓ.log id)
    (hvote : ℓ'.vote id = ℓ.vote id)
    (helection : ∀ e, ℓ'.election (ℓ.term id) = some e → e.leader = id →
      ℓ.election (ℓ.term id) = some e)
    (hlead : ∀ e, ℓ.election (ℓ.term id) = some e → e.leader = id →
      ℓ'.lead (ℓ.term id) = ℓ.lead (ℓ.term id)) : Tracks S ℓ' id n :=
  { h with
    term := by rw [hterm]; exact h.term
    vote := by rw [hterm, hvote]; exact h.vote
    journal := by rw [hlog]; exact h.journal
    commit_le := by rw [hlog]; exact h.commit_le
    settled := by rw [hlog, hterm]; exact h.settled.mono hgrows le_rfl
    pending := by rw [hlog]; exact h.pending
    record := by rw [hlog]; exact h.record
    members := by rw [hlog]; exact h.members
    noticed := by rw [hlog]; exact h.noticed
    candidate := fun hrole =>
      (h.candidate hrole).mono hgrows hterm hlog helection
    leader := fun hrole => by
      obtain ⟨e, he, hleader⟩ := (h.leader hrole).elected
      exact (h.leader hrole).mono hgrows hterm hlog (hlead e he hleader)
    truthful := h.truthful.mono hgrows le_rfl }

/-- What others do concerns a node only in so far as the ledger grows. -/
theorem Tracks.mono {other : ℕ} (h : Tracks S ℓ id n)
    (hmoves : ℓ.Moves other ℓ') (hne : id ≠ other) : Tracks S ℓ' id n :=
  h.grow hmoves.toGrows (hmoves.other_term id hne) (hmoves.other_log id hne)
    (hmoves.other_vote id hne)
    (fun e he hleader => hmoves.other_election _ e he (hleader ▸ hne))
    fun e he hleader => hmoves.other_lead _ e he (hleader ▸ hne)

/-! ## What does not matter -/

/-- Only callers, timers, replicators and effects are affected. -/
structure Quiet (S : Scope) (ℓ : Ledger) (id : ℕ) (n n' : Node Memory) :
    Prop where
  settings : n'.settings = n.settings
  replica : n'.toReplica = n.toReplica
  membership : n'.membership = n.membership
  persisted : n'.persisted = n.persisted
  recorder : n'.recorder = n.recorder
  peers : PeersHold ℓ (ℓ.term id) n.peers → PeersHold ℓ (ℓ.term id) n'.peers
  truthful : ∀ applied, n.standing.lastApplied ≤ applied →
    Truthful S ℓ id applied n.effects → Truthful S ℓ id applied n'.effects

theorem Quiet.refl (n : Node Memory) : Quiet S ℓ id n n :=
  ⟨rfl, rfl, rfl, rfl, rfl, fun h => h, fun _ _ h => h⟩

theorem Quiet.standing (h : Quiet S ℓ id n n') : n'.standing = n.standing :=
  congrArg Replica.standing h.replica

theorem Quiet.trans (h : Quiet S ℓ id n n') (h' : Quiet S ℓ id n' n'') :
    Quiet S ℓ id n n'' where
  settings := h'.settings.trans h.settings
  replica := h'.replica.trans h.replica
  membership := h'.membership.trans h.membership
  persisted := h'.persisted.trans h.persisted
  recorder := h'.recorder.trans h.recorder
  peers hpeers := h'.peers (h.peers hpeers)
  truthful applied hle htruthful := by
    refine h'.truthful applied ?_ (h.truthful applied hle htruthful)
    rw [h.standing]
    exact hle

theorem Tracks.quiet (h : Tracks S ℓ id n) (hquiet : Quiet S ℓ id n n') :
    Tracks S ℓ id n' := by
  obtain ⟨replica, settings, membership, peers, commands, changes, persisted,
    recorder, effects⟩ := n
  obtain ⟨replica', settings', membership', peers', commands', changes',
    persisted', recorder', effects'⟩ := n'
  obtain ⟨rfl, rfl, rfl, rfl, rfl, hpeers, htruthful⟩ := hquiet
  exact { h with
    leader := fun hrole =>
      { h.leader hrole with peers := hpeers (h.leader hrole).peers }
    truthful := htruthful _ le_rfl h.truthful }

theorem Settled.quiet (h : Settled n) (hquiet : Quiet S ℓ id n n') :
    Settled n' where
  applied := by
    rw [hquiet.standing]
    exact h.applied
  persisted := by
    rw [hquiet.persisted, hquiet.standing]
    exact h.persisted

theorem Truthful.append {effects more : List Effect} {applied : ℕ}
    (h : Truthful S ℓ id applied effects)
    (hmore : Truthful S ℓ id applied more) :
    Truthful S ℓ id applied (effects ++ more) := by
  intro effect heffect
  rcases List.mem_append.mp heffect with hin | hin
  · exact h effect hin
  · exact hmore effect hin

theorem quiet_emitAll {effects : List Effect}
    (heffects : Truthful S ℓ id n.standing.lastApplied effects) :
    Quiet S ℓ id n (n.emitAll effects) :=
  ⟨rfl, rfl, rfl, rfl, rfl, fun h => h, fun _ hle h =>
    h.append (heffects.mono (.refl ℓ) hle)⟩

theorem quiet_emit {effect : Effect}
    (heffect : effect.Backed S ℓ id n.standing.lastApplied) :
    Quiet S ℓ id n (n.emit effect) :=
  quiet_emitAll fun found hfound => by
    rw [List.mem_singleton.mp hfound]
    exact heffect

/-- An answer to a client. -/
def IsForClient : Answer → Prop
  | .vote _ => False
  | .append _ => False
  | .install _ => False
  | _ => True

theorem backed_answer {ticket applied : ℕ} {answer : Answer}
    (h : IsForClient answer) :
    (Effect.answer ticket answer).Backed S ℓ id applied := by
  cases answer with
  | vote reply => exact h
  | append reply => exact h
  | install reply => exact h
  | _ => trivial

theorem quiet_dismissWaiters {command change : Answer}
    (hcommand : IsForClient command) (hchange : IsForClient change) :
    Quiet S ℓ id n (n.dismissWaiters command change) := by
  refine ⟨rfl, rfl, rfl, rfl, rfl, fun h => h, fun _ _ h => h.append ?_⟩
  intro effect heffect
  rw [List.mem_append, List.mem_map, List.mem_map] at heffect
  rcases heffect with ⟨w, -, rfl⟩ | ⟨w, -, rfl⟩
  · exact backed_answer hcommand
  · exact backed_answer hchange

theorem quiet_stopReplication : Quiet S ℓ id n n.stopReplication := by
  refine ⟨rfl, rfl, rfl, rfl, rfl, fun _ peer p hp => ?_,
    fun _ _ h => h.append ?_⟩
  · have hnone : (∅ : Table Progress).get? peer = some p := hp
    rw [Table.get?_empty] at hnone
    exact absurd hnone (by simp)
  · intro effect heffect
    obtain ⟨peer, -, rfl⟩ := List.mem_map.mp heffect
    trivial

theorem PeersHold.insert_start {term nextIndex : ℕ} {peers : Table Progress}
    (h : PeersHold ℓ term peers) (hnext : 0 < nextIndex) (ids : List ℕ) :
    PeersHold ℓ term (ids.foldl
      (fun peers id => peers.insert id (.start nextIndex)) peers) := by
  induction ids generalizing peers with
  | nil => exact h
  | cons id ids ih =>
      refine ih fun peer p hp => ?_
      rw [Table.get?_insert] at hp
      split at hp
      · rw [← Option.some.inj hp]
        exact ⟨Nat.zero_le _, hnext⟩
      · exact h peer p hp

theorem quiet_syncPeers (targets : NodeSet) {nextIndex : ℕ}
    (hnext : 0 < nextIndex) :
    Quiet S ℓ id n (n.syncPeers targets nextIndex) := by
  refine ⟨rfl, rfl, rfl, rfl, rfl, fun h => ?_, fun _ _ h => h.append ?_⟩
  · refine PeersHold.insert_start (fun peer p hp => ?_) hnext _
    rw [Table.get?_restrict] at hp
    split at hp
    · exact h peer p hp
    · exact absurd hp (by simp)
  · intro effect heffect
    rw [List.mem_append, List.mem_map, List.mem_map] at heffect
    rcases heffect with ⟨peer, -, rfl⟩ | ⟨peer, -, rfl⟩ <;> trivial

theorem quiet_afterRoleChange (before : Role) :
    Quiet S ℓ id n (n.afterRoleChange before) := by
  unfold afterRoleChange
  split
  · exact Quiet.refl n
  · exact (quiet_stopReplication.trans
      (quiet_dismissWaiters (by trivial) (by trivial))).trans
        (quiet_emit trivial)

theorem quiet_modifyPeer {peer : ℕ} {change : Progress → Progress}
    (hchange : ∀ p, Holds ℓ (ℓ.term id) peer p →
      Holds ℓ (ℓ.term id) peer (change p)) :
    Quiet S ℓ id n { n with peers := n.peers.modify peer change } := by
  refine ⟨rfl, rfl, rfl, rfl, rfl, fun h other p hp => ?_, fun _ _ h => h⟩
  have hget : (n.peers.modify peer change).get? other = some p := hp
  rw [Table.get?_modify] at hget
  split at hget
  · next hother =>
    subst hother
    obtain ⟨old, hold, rfl⟩ := Option.map_eq_some_iff.mp hget
    exact hchange old (h other old hold)
  · exact h other p hget

theorem Quiet.mapStanding (h : Quiet S ℓ id n n') (change : Standing → Standing)
    (hchange : n.standing.lastApplied ≤ (change n.standing).lastApplied) :
    Quiet S ℓ id (n.mapStanding change) (n'.mapStanding change) where
  settings := h.settings
  replica := by
    unfold Node.mapStanding
    rw [h.replica]
  membership := h.membership
  persisted := h.persisted
  recorder := h.recorder
  peers := h.peers
  truthful applied hle := h.truthful applied (hchange.trans hle)

/-! ## Changing where the node stands -/

/-- A node that keeps its term, its vote and its indices, and gives up its role
or keeps it. -/
theorem Tracks.withStanding (h : Tracks S ℓ id n) {s : Standing}
    (hterm : s.currentTerm = n.standing.currentTerm)
    (hvote : s.votedFor = n.standing.votedFor)
    (hcommit : s.commitIndex = n.standing.commitIndex)
    (happlied : s.lastApplied = n.standing.lastApplied)
    (hrole : s.role = .follower ∨
      s.role = n.standing.role ∧ s.votes = n.standing.votes) :
    Tracks S ℓ id { n with standing := s } := by
  obtain ⟨⟨journal, old⟩, settings, membership, peers, commands, changes,
    persisted, recorder, effects⟩ := n
  obtain ⟨term, vote, commit, applied, role, leader, votes⟩ := s
  obtain ⟨oldTerm, oldVote, oldCommit, oldApplied, oldRole, oldLeader,
    oldVotes⟩ := old
  simp only at hterm hvote hcommit happlied hrole
  subst hterm hvote hcommit happlied
  refine { h with candidate := fun hcandidate => ?_, leader := fun hleader => ?_ }
  · have hsame : role = .candidate := hcandidate
    subst hsame
    rcases hrole with hrole | ⟨hrole, hvotes⟩
    · exact absurd hrole (by decide)
    · have hold := h.candidate hrole.symm
      exact ⟨hold.stood, hold.exact, hvotes ▸ hold.votes, hold.fresh⟩
  · have hsame : role = .leader := hleader
    subst hsame
    rcases hrole with hrole | ⟨hrole, -⟩
    · exact absurd hrole (by decide)
    · exact h.leader hrole.symm

/-- The node after its term and vote are stored. -/
def stored (n : Node Memory) : Node Memory :=
  { n with
    disk := { n.disk with hardState := n.standing.hardState }
    persisted := n.standing.hardState }

/-- The node with another journal. -/
def withJournal (n : Node Memory) (j : Journal Memory) : Node Memory :=
  { n with toReplica := { n.toReplica with toJournal := j } }

theorem ensures_onJournal {α : Type} {act : Journal.Act Memory α}
    {Q : α → Node Memory → Prop} {E : Node Memory → Prop}
    (h : Ensures act n.toJournal (fun a j => Q a (n.withJournal j))
      fun j => E (n.withJournal j)) : Ensures (onJournal act) n Q E :=
  Ensures.onPart (Ensures.onPart h)

/-- The journal changes below the applied entries only. -/
theorem Tracks.withJournal (h : Tracks S ℓ id n) {j : Journal Memory}
    (hshows : j.Shows S (ℓ.log id))
    (hboundary : j.log.snapshotIndex ≤ n.standing.lastApplied)
    (hhard : j.disk.hardState = n.disk.hardState) :
    Tracks S ℓ id (n.withJournal j) :=
  { h with
    journal := hshows
    saved := hhard.trans h.saved
    boundary_le := hboundary }

theorem onJournal_ok {α : Type} {act : Journal.Act Memory α} {a : α}
    {j : Journal Memory} (h : act n.toJournal = .ok a j) :
    onJournal act n =
      .ok a { n with toReplica := { n.toReplica with toJournal := j } } := by
  unfold onJournal onReplica Replica.onJournal
  exact onPart_ok (onPart_ok h)

theorem onDisk_ok {α : Type} {act : EStateM Error Memory α} {a : α}
    {disk : Memory} (h : act n.disk = .ok a disk) :
    onDisk act n = .ok a { n with disk := disk } :=
  onJournal_ok (Journal.onDisk_ok h)

/-- Storing what is stored already changes nothing. -/
theorem stored_eq_self (hsaved : n.disk.hardState = n.persisted)
    (hpersisted : n.persisted = n.standing.hardState) : n.stored = n := by
  have hdisk : ({ n.disk with hardState := n.persisted } : Memory) = n.disk := by
    rw [← hsaved]
  rw [stored, ← hpersisted, hdisk]

theorem persist_eq (hclean : n.disk.Clean)
    (hsaved : n.disk.hardState = n.persisted) :
    persist n = .ok () n.stored := by
  have hrun : Ensures persist n (fun _ n' => n' = n.stored) fun _ => False := by
    unfold persist
    simp only [Ensures.get_bind_iff]
    refine Ensures.ite (fun _ => ?_) fun hsame => ?_
    · exact Ensures.bind_of_ok (onDisk_ok (hclean.saveHardState _)) rfl
    · have hpersisted : n.persisted = n.standing.hardState :=
        (not_not.mp hsame).symm
      exact (stored_eq_self hsaved hpersisted).symm
  unfold Ensures at hrun
  cases hcase : persist n with
  | ok a n' =>
      rw [hcase] at hrun
      rw [hrun]
  | error e n' =>
      rw [hcase] at hrun
      exact hrun.elim

theorem Tracks.persist_eq (h : Tracks S ℓ id n) : persist n = .ok () n.stored :=
  Node.persist_eq h.journal.disk.clean h.saved

theorem Tracks.stored (h : Tracks S ℓ id n) : Tracks S ℓ id n.stored :=
  { h with
    journal := {
      log := h.journal.log
      disk := ⟨⟨h.journal.disk.clean.failing, h.journal.disk.clean.readOnly⟩,
        h.journal.disk.entries, h.journal.disk.snapshot⟩
      boundary := h.journal.boundary }
    saved := rfl }

/-! ## Entering a term -/

theorem observe_of_le {term : ℕ} (h : term ≤ ℓ.term id) :
    ℓ.observe id term = ℓ := by
  unfold Ledger.observe
  rw [max_eq_left h, Function.update_eq_self]

theorem observe_term_of_lt {term : ℕ} (h : ℓ.term id < term) :
    (ℓ.observe id term).term id = term := by
  simp [Ledger.observe, max_eq_right h.le]

/-- A node that hears of a term enters it, if it is a later one. -/
theorem Tracks.observeTerm (h : Tracks S ℓ id n) (hsound : ℓ.Sound S)
    (term : ℕ) :
    Tracks S (ℓ.observe id term) id (n.mapStanding (·.observeTerm term)) := by
  by_cases hlt : n.standing.currentTerm < term
  · have hstanding : n.standing.observeTerm term =
        { n.standing with
          currentTerm := term, votedFor := none, leader := none
          role := .follower, votes := ∅ } := by
      unfold Standing.observeTerm Standing.becomeFollower
      rw [if_pos hlt, if_pos hlt]
    have hbefore : ℓ.term id < term := h.term ▸ hlt
    have hterm := observe_term_of_lt hbefore
    have hgrows := (ℓ.moves_observe id term).toGrows
    have hnovote : ℓ.vote id term = none := by
      cases hvote : ℓ.vote id term with
      | none => rfl
      | some candidate =>
          have hle := (hsound.vote id term candidate hvote).term_le
          omega
    unfold Node.mapStanding
    simp only [hstanding]
    exact { h with
      term := hterm.symm
      vote := by
        rw [hterm]
        exact hnovote.symm
      settled := by
        rw [hterm]
        exact h.settled.mono hgrows (by omega)
      candidate := fun hrole => absurd hrole (by simp)
      leader := fun hrole => absurd hrole (by simp)
      truthful := h.truthful.mono hgrows le_rfl }
  · have hstanding : n.standing.observeTerm term = n.standing := by
      unfold Standing.observeTerm
      rw [if_neg hlt]
    have hle : term ≤ ℓ.term id := by
      rw [← h.term]
      omega
    unfold Node.mapStanding
    simp only [hstanding]
    rw [observe_of_le hle]
    exact h

/-! ## Between events -/

/-- A node between two events. -/
structure Ready (S : Scope) (ℓ : Ledger) (id : ℕ) (n : Node Memory) : Prop where
  tracks : Tracks S ℓ id n
  settled : Node.Settled n

theorem Ready.mono {other : ℕ} (h : Ready S ℓ id n) (hmoves : ℓ.Moves other ℓ')
    (hne : id ≠ other) : Ready S ℓ' id n :=
  ⟨h.tracks.mono hmoves hne, h.settled⟩

theorem Ready.quiet (h : Ready S ℓ id n) (hquiet : Quiet S ℓ id n n') :
    Ready S ℓ id n' :=
  ⟨h.tracks.quiet hquiet, h.settled.quiet hquiet⟩

/-- A node between two events, with its commit index and, if nothing was
compacted meanwhile, its boundary. -/
structure Rests (S : Scope) (ℓ : Ledger) (id : ℕ) (given : Settings)
    (commit boundary : ℕ) (n : Node Memory) : Prop
    extends Ready S ℓ id n where
  settings : n.settings = given
  commit : n.standing.commitIndex = commit
  boundary : (ℓ.log id).length ≤ given.compactionThreshold →
    n.log.snapshotIndex = boundary

theorem Ready.rests (h : Ready S ℓ id n) :
    Rests S ℓ id n.settings n.standing.commitIndex n.log.snapshotIndex n :=
  ⟨h, rfl, rfl, fun _ => rfl⟩

theorem Rests.quiet {given : Settings} {commit boundary : ℕ}
    (h : Rests S ℓ id given commit boundary n) (hquiet : Quiet S ℓ id n n') :
    Rests S ℓ id given commit boundary n' where
  toReady := h.toReady.quiet hquiet
  settings := hquiet.settings.trans h.settings
  commit := by rw [hquiet.standing, h.commit]
  boundary hlong := by rw [hquiet.replica, h.boundary hlong]

/-- The node with another bound on the length of its log. -/
def withThreshold (n : Node Memory) (threshold : ℕ) : Node Memory :=
  { n with settings := { n.settings with compactionThreshold := threshold } }

@[simp] theorem withThreshold_self (n : Node Memory) :
    n.withThreshold n.settings.compactionThreshold = n :=
  rfl

theorem Tracks.withThreshold (h : Tracks S ℓ id n) (threshold : ℕ) :
    Tracks S ℓ id (n.withThreshold threshold) :=
  { h with }

theorem Ready.withThreshold (h : Ready S ℓ id n) (threshold : ℕ) :
    Ready S ℓ id (n.withThreshold threshold) :=
  ⟨h.tracks.withThreshold threshold, h.settled.applied, h.settled.persisted⟩

/-- An event takes a node from one ledger to a later one.  The ledger and the
commit index that it reaches do not depend on when logs are compacted; where
`fails` is false, it does not fail. -/
def Handled {α : Type} (S : Scope) (ℓ : Ledger) (id : ℕ) (n : Node Memory)
    (act : Act Memory α) (boundary : ℕ) (answered : Ledger → α → Prop)
    (fails : Prop) : Prop :=
  ∃ ℓ' commit, ℓ.Moves id ℓ' ∧ ℓ'.Sound S ∧ ∀ threshold,
    Ensures act (n.withThreshold threshold)
      (fun a n' => Rests S ℓ' id (n.withThreshold threshold).settings commit
        boundary n' ∧ answered ℓ' a)
      fun n' => fails ∧
        Truthful S ℓ' id n.standing.lastApplied n'.effects

end Consensus.Node
