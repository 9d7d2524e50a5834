import Mathlib
import Consensus.Proofs.Node.Idle
import Consensus.Proofs.Node.Peering
import Consensus.Proofs.Node.Preempting
import Consensus.Proofs.Node.Seating

/-!
# What goes with a role

Role, vote, leader hint, votes, peers and waiting callers are changed in many places, but
they go together.  A leader has its own vote and takes itself for the leader, and knows
exactly the peers that it is to replicate to.  A candidate has its own vote and counts it,
and takes nobody for the leader.  Whoever does not lead knows no peers, lets nobody wait,
and does not take itself for the leader, so that no client is sent to a node that does
not lead.

All of this holds after every deed but for one thing.  A leader that has just applied its
own removal still leads, and steps down next.  So that a leader is a member can only be
said once the event is over.
-/

namespace Consensus

/-- The event is no request of a leader that has the id. -/
def Event.IsForeign (id : ℕ) (event : Event) : Prop :=
  ∀ term, event.leader? ≠ some (term, id)

namespace Node

variable {σ : Type} {n m n' : Node σ} {s : Standing} {event : Event} {id : ℕ}
  {settings : Settings}

/-! ## Where a node stands -/

/-- Vote, leader hint and votes are as the role of the node with the id asks for. -/
structure Befits (s : Standing) (id : ℕ) : Prop where
  vote : VotesForItself s id
  leads : s.role = .leader → s.leader = some id ∧ s.votes = ∅
  stands : s.role = .candidate → id ∈ s.votes ∧ s.leader = none
  hint : s.role ≠ .leader → s.leader ≠ some id

theorem befits_of_follower (hrole : s.role = .follower) (hhint : s.leader ≠ some id) :
    Befits s id where
  vote hactive := absurd hrole hactive
  leads hleads := absurd (hrole.symm.trans hleads) (by simp)
  stands hstands := absurd (hrole.symm.trans hstands) (by simp)
  hint _ := hhint

theorem befits_becomeFollower {term : ℕ} (hlt : s.currentTerm < term) (id : ℕ) :
    Befits (s.becomeFollower term) id := by
  apply befits_of_follower (role_becomeFollower s term)
  rw [becomeFollower_of_lt hlt]
  simp

theorem befits_becomeCandidate (s : Standing) (id : ℕ) :
    Befits (s.becomeCandidate id) id where
  vote _ := rfl
  leads hleads := absurd hleads (by simp [Standing.becomeCandidate])
  stands _ := ⟨NodeSet.mem_insert.mpr (Or.inl rfl), rfl⟩
  hint _ := by simp [Standing.becomeCandidate]

theorem Befits.becomeLeader (h : Befits s id) (hrole : s.role = .candidate) :
    Befits (s.becomeLeader id) id where
  vote _ := h.vote (by rw [hrole]; simp)
  leads _ := ⟨rfl, rfl⟩
  stands hstands := absurd hstands (by simp [Standing.becomeLeader])
  hint hother := absurd rfl hother

theorem Befits.observeTerm (h : Befits s id) (term : ℕ) :
    Befits (s.observeTerm term) id := by
  unfold Standing.observeTerm
  split
  · next hlt => exact befits_becomeFollower hlt id
  · exact h

theorem befits_following {term leader : ℕ} (hterm : term ≤ s.currentTerm)
    (hforeign : leader ≠ id) : Befits (following s term leader) id := by
  apply befits_of_follower (role_following hterm leader)
  unfold following
  simpa using hforeign

theorem Turns.befits (h : n.Turns event s) (hn : Befits n.standing n.self)
    (hforeign : event.IsForeign n.self) : Befits s n.self := by
  have hvote := h.votesForItself hn.vote
  cases h with
  | asked ticket request =>
      have hobserved := hn.observeTerm request.term
      rcases answerVote_cases n.standing n.log request with ⟨-, hs⟩ | ⟨-, hs, -⟩
      · rw [hs]
        exact hobserved
      · rw [hs] at hvote ⊢
        exact ⟨hvote, hobserved.leads, hobserved.stands, hobserved.hint⟩
  | @led event term leader hleader hterm =>
      refine befits_following (le_observeTerm _ _) ?_
      rintro rfl
      exact hforeign term hleader
  | overtaken hreply hterm => exact befits_becomeFollower hterm n.self
  | stood hevent hself => exact befits_becomeCandidate n.standing n.self

/-! ## Peers -/

/-- The node knows exactly the peers that it is to replicate to. -/
def Tends (n : Node σ) : Prop :=
  ∀ id, (n.peers.get? id).isSome = true ↔ id ∈ n.targets

theorem Tends.of_same (h : n.Tends) (hpeers : m.peers = n.peers)
    (htargets : m.targets = n.targets) : m.Tends := by
  unfold Tends
  rw [hpeers, htargets]
  exact h

theorem self_not_mem_targets (n : Node σ) : n.self ∉ n.targets :=
  fun hself => (NodeSet.mem_erase.mp hself).2 rfl

theorem Aside.targets (h : Aside n m) : m.targets = n.targets := by
  unfold Node.targets
  rw [h.membership, h.self]

/-- Whatever peers were known, afterwards they are the targets. -/
theorem isSome_syncPeers (n : Node σ) {targets : NodeSet} (hself : n.self ∉ targets)
    (nextIndex : ℕ) : ((n.syncPeers targets nextIndex).peers.get? id).isSome = true ↔
      id ∈ targets := by
  unfold syncPeers
  dsimp only
  rw [Table.get?_insertAll, Table.get?_restrict]
  by_cases hin : id ∈ targets
  · have hother : id ≠ n.self := fun heq => hself (heq ▸ hin)
    cases hpeer : n.peers.get? id with
    | none =>
        have hadded : id ∈ targets.toList.filter fun id =>
            decide (id ≠ n.self) && (n.peers.get? id).isNone := by
          rw [List.mem_filter, hpeer, decide_eq_true hother]
          exact ⟨hin, rfl⟩
        rw [if_pos hadded]
        exact iff_of_true rfl hin
    | some progress =>
        rw [if_pos (decide_eq_true hin)]
        refine iff_of_true ?_ hin
        split <;> rfl
  · have hkept : id ∉ targets.toList.filter fun id =>
        decide (id ≠ n.self) && (n.peers.get? id).isNone :=
      fun hadded => hin (List.mem_filter.mp hadded).1
    rw [if_neg hkept, if_neg (by simpa using hin)]
    exact iff_of_false (by simp) hin

theorem tends_syncPeers (n : Node σ) (nextIndex : ℕ) :
    (n.syncPeers n.targets nextIndex).Tends := by
  intro id
  rw [(aside_syncPeers n n.targets nextIndex).targets]
  exact n.isSome_syncPeers n.self_not_mem_targets nextIndex

theorem Tends.recordReply (h : n.Tends) (peer : ℕ) (change : Progress → Progress) :
    (n.recordReply peer change).Tends := by
  intro id
  unfold Node.recordReply
  rw [Table.isSome_get?_modify]
  exact h id

/-- Whatever is learnt of a peer, what it is sent next comes after what it holds. -/
theorem lasting_ahead : Lasting fun p => p.matchIndex < p.nextIndex where
  start lastIndex := Nat.succ_pos lastIndex
  marked hp := hp
  learns h p hp := by
    have hsuccess : ∀ index, (p.recordSuccess index).matchIndex <
        (p.recordSuccess index).nextIndex := fun index => Nat.le_max_right _ _
    cases h with
    | ended => exact hp
    | @appended prevIndex count hkind reply =>
        dsimp only
        split
        · exact hsuccess _
        · exact (Nat.le_max_right _ _).trans (Nat.le_max_left _ _)
    | installed => exact hsuccess _

theorem peers_afterRoleChange (n : Node σ) (before : Role) :
    (n.afterRoleChange before).peers =
      if before ≠ .leader ∨ n.standing.role = .leader then n.peers else ∅ := by
  unfold afterRoleChange
  split <;> rfl

/-! ## Deeds -/

/-- Where the node stands is as its role asks for, and it knows its peers if it leads and
none if it does not. -/
structure Bears (n : Node σ) : Prop where
  befits : Befits n.standing n.self
  tends : n.standing.role = .leader → n.Tends
  alone : n.standing.role ≠ .leader → n.peers = ∅

/-- Indices apart, the node stands where it stood, and if it leads it is to replicate to
the same peers. -/
structure SameOffice (n m : Node σ) : Prop where
  settings : m.settings = n.settings
  targets : n.standing.role = .leader → m.targets = n.targets
  peers : m.peers = n.peers
  standing : m.standing = { n.standing with
    commitIndex := m.standing.commitIndex
    lastApplied := m.standing.lastApplied }

theorem Bears.of_same (hn : n.Bears) (h : SameOffice n m) : m.Bears := by
  obtain ⟨hbefits, htends, halone⟩ := hn
  have hself : m.self = n.self := congrArg Settings.nodeId h.settings
  have hrole : m.standing.role = n.standing.role := by rw [h.standing]
  refine ⟨?_, fun hleads => ?_, fun hother => ?_⟩
  · rw [h.standing, hself]
    exact ⟨hbefits.vote, hbefits.leads, hbefits.stands, hbefits.hint⟩
  · rw [hrole] at hleads
    exact (htends hleads).of_same h.peers (h.targets hleads)
  · rw [h.peers]
    exact halone (hrole ▸ hother)

theorem SameOffice.of_not_leader (hrole : n.standing.role ≠ .leader)
    (hsettings : m.settings = n.settings) (hpeers : m.peers = n.peers)
    (hstanding : m.standing = { n.standing with
      commitIndex := m.standing.commitIndex
      lastApplied := m.standing.lastApplied }) : SameOffice n m :=
  ⟨hsettings, fun hleads => absurd hleads hrole, hpeers, hstanding⟩

/-- A leader brings its peers up to date after its members changed. -/
theorem Bears.sync (h : n.Bears) (hrole : n.standing.role = .leader)
    (hself : m.self = n.self) (hstanding : m.standing = n.standing) (nextIndex : ℕ) :
    (m.syncPeers m.targets nextIndex).Bears := by
  have haside := aside_syncPeers m m.targets nextIndex
  refine ⟨?_, fun _ => m.tends_syncPeers nextIndex, fun hother => ?_⟩
  · rw [haside.standing, haside.self, hstanding, hself]
    exact h.befits
  · rw [haside.standing, hstanding] at hother
    exact absurd hrole hother

/-- A leader learns something of one peer. -/
theorem Bears.recordReply (h : n.Bears) (hrole : n.standing.role = .leader) (peer : ℕ)
    (change : Progress → Progress) : (n.recordReply peer change).Bears where
  befits := h.befits
  tends _ := (h.tends hrole).recordReply peer change
  alone hother := absurd hrole hother

/-- Whoever turns and does not lead then knows no peers any more.  Nobody begins to lead
by turning. -/
theorem Bears.turned (h : n.Bears) {disk : σ} (hbefits : Befits s n.self)
    (hleads : s.role = .leader → n.standing.role = .leader) :
    (n.turned s disk).Bears := by
  have hpeers : (n.turned s disk).peers =
      if n.standing.role ≠ .leader ∨ s.role = .leader then n.peers else ∅ :=
    peers_afterRoleChange _ _
  refine ⟨?_, fun hrole => ?_, fun hrole => ?_⟩
  · rw [standing_turned, self_turned]
    exact hbefits
  · rw [standing_turned] at hrole
    rw [if_pos (Or.inr hrole)] at hpeers
    exact (h.tends (hleads hrole)).of_same hpeers (aside_turned n s disk).targets
  · rw [standing_turned] at hrole
    rw [hpeers]
    split
    · next hcase => exact h.alone (hcase.resolve_right hrole)
    · rfl

theorem Bears.crowned (h : n.Bears) (hrole : n.standing.role = .candidate) :
    n.crowned.Bears where
  befits := by
    rw [standing_crowned, n.aside_crowned.self]
    exact h.befits.becomeLeader hrole
  tends _ := tends_syncPeers _ _
  alone hother := by
    rw [standing_crowned] at hother
    exact absurd rfl hother

theorem Bears.enact (h : n.Bears) (entry : Entry) (index : ℕ) :
    (n.enact entry index).Bears := by
  unfold Node.enact
  split
  · exact h
  · exact h.of_same ⟨rfl, fun _ => rfl, rfl, rfl⟩
  · unfold adoptMembers
    dsimp only
    split
    · next hrole =>
      apply h.sync hrole
      · rfl
      · rfl
    · next hrole => exact h.of_same (.of_not_leader hrole rfl rfl rfl)

theorem sameOffice_answerWaiters (n : Node σ) (index term : ℕ) :
    SameOffice n (n.answerWaiters index term) := by
  rw [answerWaiters_eq]
  have hcommand : SameOffice n (n.answerCommand index term) := by
    unfold answerCommand
    split <;> exact ⟨rfl, fun _ => rfl, rfl, rfl⟩
  unfold answerChange
  split
  · exact hcommand
  · exact ⟨hcommand.settings, hcommand.targets, hcommand.peers, hcommand.standing⟩

theorem Bears.applyEntry (h : n.Bears) (entry : Entry) (index : ℕ) :
    (n.applyEntry entry index).Bears := by
  have happlied : ((n.enact entry index).mapStanding fun s =>
      { s with lastApplied := index }).Bears :=
    (h.enact entry index).of_same ⟨rfl, fun _ => rfl, rfl, rfl⟩
  exact happlied.of_same (sameOffice_answerWaiters _ _ _)

theorem Commits.bears (h : Commits event n n') (hn : n.Bears) : n'.Bears := by
  cases h with
  | committed => exact hn.of_same ⟨rfl, fun _ => rfl, rfl, rfl⟩

variable [Storage σ]

theorem Closes.bears (h : Closes event n n') (hn : n.Bears) : n'.Bears := by
  cases h with
  | applied => exact hn.applyEntry _ _
  | retired =>
      have hrole : n.retiring.role = .follower := by rw [retiring_eq]
      have hhint : n.retiring.leader = none := by rw [retiring_eq]
      refine hn.turned (befits_of_follower hrole (by rw [hhint]; simp)) fun hleads => ?_
      exact absurd (hrole.symm.trans hleads) (by simp)
  | @dispatched peer progress request kind hrole =>
      have hmarked : (n.recordReply peer fun p => { p with inFlight := true }).Bears :=
        hn.recordReply hrole peer _
      exact hmarked.of_same ⟨rfl, fun _ => rfl, rfl, rfl⟩
  | announced | compacted | campaigned | answered =>
      exact hn.of_same ⟨rfl, fun _ => rfl, rfl, rfl⟩

variable [Storage.Faithful σ]

theorem Opens.bears (h : Opens event n n') (hn : n.Bears) (hheeds : n.Heeds settings)
    (hforeign : event.IsForeign n.self) : n'.Bears := by
  cases h with
  | turned hturns =>
      refine hn.turned (hturns.befits hn.befits hforeign) fun hleads => ?_
      rcases hturns.role_cases with hrole | hrole | ⟨rfl, -⟩
      · exact absurd (hrole.symm.trans hleads) (by simp)
      · exact hrole.symm.trans hleads
      · exact absurd hleads (by simp [Standing.becomeCandidate])
  | counted hevent hrole hgranted =>
      obtain ⟨hbefits, htends, halone⟩ := hn
      refine ⟨⟨hbefits.vote, fun hleads => ?_, fun hstands => ?_, hbefits.hint⟩,
        fun hleads => ?_, halone⟩
      · exact absurd (hrole.symm.trans hleads) (by simp)
      · obtain ⟨hself, hhint⟩ := hbefits.stands hrole
        exact ⟨NodeSet.mem_insert.mpr (Or.inr hself), hhint⟩
      · exact absurd (hrole.symm.trans hleads) (by simp)
  | crowned hrole => exact hn.crowned hrole
  | proposed hevent hrole =>
      apply hn.sync hrole
      · rfl
      · rfl
  | merged htakes => exact hn.of_same (.of_not_leader htakes.not_leader rfl rfl rfl)
  | rebased hadmits => exact hn.of_same (.of_not_leader hadmits.not_leader rfl rfl rfl)
  | refreshed =>
      -- what is pending was known before, so the targets are the same
      rw [hheeds.refreshed_eq]
      exact hn
  | recorded hevent hrole => exact hn.recordReply hrole _ _
  | waited | noted | accepted => exact hn.of_same ⟨rfl, fun _ => rfl, rfl, rfl⟩

/-! ## Events -/

theorem Opening.bears (h : Opening event n n') (hn : n.Bears)
    (hdutiful : n.Dutiful settings) (hharmless : event.IsHarmless n)
    (hforeign : event.IsForeign settings.nodeId) : n'.Bears := by
  have hkept := keeps_of_reflTransGen h
    (I := fun m => (m.Dutiful settings ∧ event.IsHarmless m) ∧ m.Bears) ?_
    ⟨⟨hdutiful, hharmless⟩, hn⟩
  · exact hkept.2
  · rintro a b hstep ⟨⟨ha, hspared⟩, hbears⟩
    refine ⟨Opening.dutiful (.single hstep) ha hspared, hstep.bears hbears ha.heeds ?_⟩
    rw [Node.self, ha.heeds.settings]
    exact hforeign

theorem Course.bears (h : Course event n n') (hn : n.Bears)
    (hdutiful : n.Dutiful settings) (hharmless : event.IsHarmless n)
    (hforeign : event.IsForeign settings.nodeId) : n'.Bears := by
  obtain ⟨m, hopening, k, hcommitting, hclosing⟩ := h
  have hm := hopening.bears hn hdutiful hharmless hforeign
  have hk : k.Bears := by
    cases hcommitting with
    | refl => exact hm
    | single hstep => exact hstep.bears hm
  exact keeps_of_reflTransGen hclosing (fun _ _ hstep ha => hstep.bears ha) hk

/-! ## Whole runs -/

/-- The node was started with the settings, over any disk, and has handled harmless events
since, all without an error.  No request came from a leader with its own id. -/
inductive Operates [Counting] (settings : Settings) : Node σ → Prop
  | started {d d' : Durable σ} {n : Node σ}
      (hrun : recover settings d = .ok n d') : Operates settings n
  | handled {event : Event} {n : Node σ} (hn : Operates settings n)
      (hharmless : event.IsHarmless n) (hforeign : event.IsForeign settings.nodeId)
      (hwell : (outcome (handle event) n).1 = .ok ()) :
      Operates settings { (outcome (handle event) n).2 with effects := [] }

omit [Storage.Faithful σ] in
theorem Operates.running (h : Operates settings n) : Running settings n := by
  induction h with
  | started hrun => exact .started hrun
  | handled hn hharmless hforeign hwell ih => exact ih.handled hharmless hwell

omit [Storage.Faithful σ] in
theorem Operates.along [Counting] (h : Operates settings n) {event : ℕ → Event} {k : ℕ}
    (hstep : ∀ j < k, (event j).IsHarmless (n.along event j) ∧
      (event j).IsForeign settings.nodeId ∧
      (outcome (handle (event j)) (n.along event j)).1 = .ok ()) :
    Operates settings (n.along event k) := by
  refine keeps_along h fun j hlt hn => ?_
  obtain ⟨hharmless, hforeign, hwell⟩ := hstep j hlt
  exact hn.handled hharmless hforeign hwell

/-- The event is harmless, and no request comes from a leader with the node's own id. -/
def FromOutside (settings : Settings) (event : Event) (n : Node σ) : Prop :=
  event.IsHarmless n ∧ event.IsForeign settings.nodeId

omit [Storage.Faithful σ] in
theorem InWords.operates (h : n.InWords settings (FromOutside settings)) :
    Operates settings n :=
  h.keeps (fun _ _ _ hrun => .started hrun) fun _ _ hsuits hwell hn =>
    hn.handled hsuits.1 hsuits.2 hwell

/-- The role of a node and what goes with it, between events. -/
structure Serving (n : Node σ) : Prop where
  bears : n.Bears
  ahead : n.peers.Every fun p => p.matchIndex < p.nextIndex
  seated : n.Seated
  attentive : n.Attentive

theorem serving_of_recover {d d' : Durable σ} (hrun : recover settings d = .ok n d') :
    n.Serving := by
  have hnew := (ensures_recover_isNew settings d).ok hrun
  have hresumes := (ensures_recover settings d).ok hrun
  have hhint : n.standing.leader = none := by
    rw [hresumes.standing]
    rfl
  have hbears : n.Bears := by
    refine ⟨befits_of_follower hnew.role (by rw [hhint]; simp), fun hleads => ?_,
      fun _ => hnew.peers⟩
    exact absurd (hnew.role.symm.trans hleads) (by simp)
  exact ⟨hbears, hnew.peers ▸ Table.every_empty, seated_of_follower hnew.role,
    .of_none hnew.commandWaiters hnew.changeWaiters⟩

theorem Operates.serving (h : Operates settings n) : n.Serving := by
  induction h with
  | started hrun => exact serving_of_recover hrun
  | @handled event n hn hharmless hforeign hwell ih =>
      have hrunning := hn.running
      obtain ⟨hdutiful, hsaved⟩ := hrunning.dutiful
      have hcourse := course_of_outcome hsaved hwell
      have hbears := hcourse.bears ih.bears hdutiful hharmless hforeign
      have hseated : (outcome (handle event) n).2.Seated :=
        (kept_seated.handle ih.seated hrunning.idle event).ok (eq_ok_of_outcome hwell)
      have hsteady := hcourse.steady ⟨hdutiful.level, ih.attentive⟩ hharmless
      have hahead := lasting_ahead.course hcourse ih.ahead
      exact ⟨hbears.of_same ⟨rfl, fun _ => rfl, rfl, rfl⟩, hahead, hseated,
        hsteady.attentive.of_same rfl rfl rfl rfl rfl fun _ _ _ hentry => hentry⟩

/-- All that goes with the role of a node. -/
structure Coherent (n : Node σ) : Prop where
  leader : n.standing.role = .leader → n.standing.votedFor = some n.self ∧
    n.standing.leader = some n.self ∧ n.standing.votes = ∅ ∧
    n.self ∈ n.membership.committed
  peers : n.standing.role = .leader →
    (∀ id, (n.peers.get? id).isSome = true ↔
      id ∈ n.membership.replicationTargets n.self) ∧
    ∀ id p, n.peers.get? id = some p →
      1 ≤ p.matchIndex + 1 ∧ p.matchIndex + 1 ≤ p.nextIndex
  candidate : n.standing.role = .candidate → n.standing.votedFor = some n.self ∧
    n.self ∈ n.standing.votes ∧ n.standing.leader = none
  other : n.standing.role ≠ .leader → n.peers = ∅ ∧ n.commandWaiters = ∅ ∧
    n.changeWaiters = ∅ ∧ n.standing.leader ≠ some n.self

/-- A node stands for election, leads, and is asked to add a server. -/
def expandingTurn : ℕ → Event
  | 0 => .campaign
  | 1 => .voteReply 2 1 ⟨1, true⟩
  | _ => .change 7 (.add 4)

/-- The node before each of these events, first of all one of three members. -/
def expanding : ℕ → Node Memory :=
  @along Memory _ .words (fresh { members := [1, 2, 3] } ⟨{}, {}⟩) expandingTurn

theorem fromOutside_expandingTurn (k : ℕ) (n : Node Memory) :
    FromOutside { members := [1, 2, 3] } (expandingTurn k) n := by
  have hleader : (expandingTurn k).leader? = none := by
    unfold expandingTurn
    split <;> rfl
  refine ⟨Event.isHarmless_of_leader? hleader n, fun term => ?_⟩
  rw [hleader]
  simp

theorem hasRoom_expanding {k : ℕ} (hlt : k < 3) :
    (expanding k).HasRoom (expandingTurn k) := by
  interval_cases k
  · exact ⟨fun _ => by decide, below_of_values (by decide), by decide⟩
  · exact ⟨by simp [expandingTurn], below_of_values (by decide), by decide⟩
  · have hpeers : (expanding 2).peers.values = [⟨1, 0, true⟩, ⟨1, 0, true⟩] := by cbv
    have hlog : (expanding 2).log = ⟨[⟨1, 1, .noop⟩], 0, 0⟩ := by cbv
    have hcommit : (expanding 2).standing.commitIndex = 0 := by cbv
    have happlied : (expanding 2).standing.lastApplied = 0 := by cbv
    refine ⟨by simp [expandingTurn], below_of_values ?_, by decide⟩
    rw [hpeers, hlog, hcommit, happlied]
    decide

theorem inWords_expanding {k : ℕ} (hle : k ≤ 3) :
    (expanding k).InWords { members := [1, 2, 3] } (FromOutside { members := [1, 2, 3] }) := by
  have hstart : @recover Memory _ .words { members := [1, 2, 3] } ⟨{}, {}⟩ =
      .ok (expanding 0) ⟨{}, {}⟩ := rfl
  refine (InWords.started hstart (by decide)).along fun j hlt =>
    ⟨fromOutside_expandingTurn j _, hasRoom_expanding (hlt.trans_le hle), ?_⟩
  have hlt : j < 3 := hlt.trans_le hle
  interval_cases j
  all_goals cbv

theorem isForeign_overflowTurn (k : ℕ) : (overflowTurn k).IsForeign 1 := by
  unfold overflowTurn
  split
  all_goals simp [Event.IsForeign, Event.leader?, lastSnapshot]

end Node

end Consensus
