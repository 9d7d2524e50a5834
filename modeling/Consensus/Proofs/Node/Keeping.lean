import Consensus.Proofs.Node.Tracing
import Consensus.Proofs.Node.Waiting

/-!
# What every handler keeps

Most of what a handler does leaves a node as it was, or makes it a follower at most.
There are three things that do more: standing for election, beginning to lead, and
applying what is committed.  A property of nodes is kept by all handlers if it is kept
by these three, and by whatever does no more than the rest.

The deeds of an event say what may be done but not what must be.  So this is of use for
what holds only once an event is over, such as that everything committed is applied.
-/

namespace Consensus

namespace Node

variable {σ α β : Type} {n m k : Node σ}

/-! ## Nodes that stay where they are -/

/-- What is committed and what is applied are the same. -/
structure SameIndices (n m : Node σ) : Prop where
  commit : m.standing.commitIndex = n.standing.commitIndex
  applied : m.standing.lastApplied = n.standing.lastApplied

theorem SameIndices.trans (h : SameIndices n m) (h' : SameIndices m k) :
    SameIndices n k :=
  ⟨h'.commit.trans h.commit, h'.applied.trans h.applied⟩

/-- Nothing that is committed is left to be applied. -/
def Idle (n : Node σ) : Prop := n.standing.commitIndex ≤ n.standing.lastApplied

theorem SameIndices.idle (h : SameIndices n m) (hn : n.Idle) : m.Idle := by
  unfold Idle
  rw [h.commit, h.applied]
  exact hn

theorem sameIndices_becomeFollower (n : Node σ) (term : ℕ) :
    SameIndices n (n.mapStanding (·.becomeFollower term)) := by
  unfold mapStanding Standing.becomeFollower
  constructor
  · dsimp only
    split <;> rfl
  · dsimp only
    split <;> rfl

/-- The node stands where it stood, with the same settings and members. -/
structure Still (n m : Node σ) : Prop where
  settings : m.settings = n.settings
  membership : m.membership = n.membership
  standing : m.standing = n.standing

theorem Still.refl (n : Node σ) : Still n n := ⟨rfl, rfl, rfl⟩

theorem Still.trans (h : Still n m) (h' : Still m k) : Still n k where
  settings := h'.settings.trans h.settings
  membership := h'.membership.trans h.membership
  standing := h'.standing.trans h.standing

theorem still_emitAll (n : Node σ) (effects : List Effect) : Still n (n.emitAll effects) :=
  ⟨rfl, rfl, rfl⟩

theorem still_emit (n : Node σ) (effect : Effect) : Still n (n.emit effect) :=
  ⟨rfl, rfl, rfl⟩

theorem still_recordReply (n : Node σ) (peer : ℕ) (change : Progress → Progress) :
    Still n (n.recordReply peer change) :=
  ⟨rfl, rfl, rfl⟩

theorem Aside.still (h : Aside n m) : Still n m :=
  ⟨h.settings, h.membership, h.standing⟩

/-- The node has the same settings and members, and what is committed and applied is the
same.  It may have become a follower, but nothing more. -/
structure Abides (n m : Node σ) : Prop where
  settings : m.settings = n.settings
  committed : m.membership.committed = n.membership.committed
  indices : SameIndices n m
  role : m.standing.role = n.standing.role ∨ m.standing.role = .follower

theorem Still.abides (h : Still n m) : Abides n m where
  settings := h.settings
  committed := congrArg Membership.committed h.membership
  indices := ⟨congrArg Standing.commitIndex h.standing,
    congrArg Standing.lastApplied h.standing⟩
  role := Or.inl (congrArg Standing.role h.standing)

theorem Abides.trans (h : Abides n m) (h' : Abides m k) : Abides n k where
  settings := h'.settings.trans h.settings
  committed := h'.committed.trans h.committed
  indices := h.indices.trans h'.indices
  role := by
    rcases h'.role with hsame | hfollows
    · rw [hsame]
      exact h.role
    · exact Or.inr hfollows

theorem Abides.self (h : Abides n m) : m.self = n.self :=
  congrArg Settings.nodeId h.settings

theorem Abides.follower (h : Abides n m) (hrole : n.standing.role = .follower) :
    m.standing.role = .follower := by
  rcases h.role with hsame | hfollows
  · exact hsame.trans hrole
  · exact hfollows

theorem abides_of_standing {s : Standing}
    (hcommit : s.commitIndex = n.standing.commitIndex)
    (happlied : s.lastApplied = n.standing.lastApplied)
    (hrole : s.role = n.standing.role ∨ s.role = .follower) :
    Abides n { n with standing := s } :=
  ⟨rfl, rfl, ⟨hcommit, happlied⟩, hrole⟩

theorem abides_becomeFollower (n : Node σ) (term : ℕ) :
    Abides n (n.mapStanding (·.becomeFollower term)) :=
  ⟨rfl, rfl, sameIndices_becomeFollower n term,
    Or.inr (role_becomeFollower n.standing term)⟩

theorem abides_observeTerm (n : Node σ) (term : ℕ) :
    Abides n (n.mapStanding (·.observeTerm term)) :=
  ⟨rfl, rfl, ⟨commitIndex_observeTerm _ _, lastApplied_observeTerm _ _⟩,
    role_observeTerm_cases n.standing term⟩

theorem abides_following (n : Node σ) (term leader : ℕ) :
    Abides n (n.mapStanding fun s => following (s.observeTerm term) term leader) := by
  obtain ⟨votes, heq⟩ := following_eq (le_observeTerm n.standing term) leader
  unfold mapStanding
  dsimp only
  rw [heq]
  exact abides_of_standing (commitIndex_observeTerm _ _) (lastApplied_observeTerm _ _)
    (Or.inr rfl)

theorem abides_answerVote (n : Node σ) (request : VoteRequest) :
    Abides n { n with standing := (n.standing.answerVote n.log request).2 } := by
  have hobserve := abides_observeTerm n request.term
  obtain ⟨vote, heq⟩ := answerVote_eq n.standing n.log request
  rw [heq]
  exact abides_of_standing hobserve.indices.commit hobserve.indices.applied
    hobserve.role

theorem abides_refreshed (n : Node σ) : Abides n n.refreshed :=
  ⟨rfl, rfl, ⟨rfl, rfl⟩, Or.inl rfl⟩

/-- The computation leaves the node where it stands, if it ends well. -/
def Rest (act : Act σ α) (n : Node σ) : Prop :=
  Ensures act n (fun _ m => Still n m) fun _ => True

/-- The computation makes a follower of the node at most, if it ends well. -/
def Abide (act : Act σ α) (n : Node σ) : Prop :=
  Ensures act n (fun _ m => Abides n m) fun _ => True

theorem Rest.abide {act : Act σ α} (h : Rest act n) : Abide act n :=
  h.imp fun _ _ hm => hm.abides

variable [Storage σ]

/-! ## Parts of handlers -/

omit [Storage σ] in
theorem rest_onJournal (n : Node σ) (act : Journal.Act σ α) :
    Rest (onJournal act) n :=
  Ensures.onJournal (fun _ _ _ => ⟨rfl, rfl, rfl⟩) fun _ _ _ => trivial

theorem rest_persist (n : Node σ) : Rest persist n := by
  unfold Rest persist
  rw [Ensures.get_bind_iff]
  refine Ensures.ite (fun _ => ?_) fun _ => Still.refl n
  refine Ensures.bind (Ensures.onDisk (fun _ _ _ => ?_) fun _ _ _ => trivial)
  exact ⟨rfl, rfl, rfl⟩

theorem abide_stepDown (n : Node σ) (term : ℕ) : Abide (stepDown term) n := by
  unfold stepDown
  refine (rest_persist (n.mapStanding (·.becomeFollower term))).andThen fun _ m hm => ?_
  have hturned := (aside_afterRoleChange m n.standing.role).still
  exact (abides_becomeFollower n term).trans (hm.trans hturned).abides

theorem role_stepDown (n : Node σ) (term : ℕ) :
    Ensures (stepDown term) n (fun _ m => m.standing.role = .follower)
      fun _ => True := by
  unfold stepDown
  refine (rest_persist (n.mapStanding (·.becomeFollower term))).andThen fun _ m hm => ?_
  have hturned := (aside_afterRoleChange m n.standing.role).still
  change (m.afterRoleChange n.standing.role).standing.role = _
  rw [(hm.trans hturned).standing]
  exact role_becomeFollower n.standing term

theorem rest_replicateTo (n : Node σ) (peer : ℕ) : Rest (replicateTo peer) n := by
  unfold Rest replicateTo
  rw [Ensures.get_bind_iff]
  cases n.peers.get? peer with
  | none => exact Still.refl n
  | some progress =>
      refine Ensures.ite (fun _ => Still.refl n) fun _ => ?_
      refine Ensures.ite (fun _ => ?_) fun _ => ?_
      · refine Ensures.bind (Ensures.inspect (fun found _ => ?_) fun _ _ => trivial)
        cases found with
        | none => trivial
        | some snapshot => exact ⟨rfl, rfl, rfl⟩
      · dsimp only
        split
        · trivial
        · exact ⟨rfl, rfl, rfl⟩

theorem rest_replicateAll (n : Node σ) : Rest replicateAll n := by
  unfold Rest replicateAll
  rw [Ensures.get_bind_iff]
  refine Ensures.ite (fun _ => Still.refl n) fun _ => ?_
  refine Ensures.forM (Still.refl n) fun peer m hm => ?_
  exact (rest_replicateTo m peer).imp fun _ _ hk => hm.trans hk

theorem rest_compactIfLong (n : Node σ) : Rest compactIfLong n := by
  unfold Rest compactIfLong
  rw [Ensures.get_bind_iff]
  refine Ensures.ite (fun _ => Still.refl n) fun _ => ?_
  cases n.log.termAt? n.standing.lastApplied with
  | none => trivial
  | some term =>
      refine Ensures.bind (Ensures.onDisk (fun _ disk _ => ?_) fun _ _ _ => trivial)
      exact (rest_onJournal { n with disk := disk } _).imp fun _ _ hm =>
        ⟨hm.settings, hm.membership, hm.standing⟩

/-- Where nothing is left to apply, nothing is applied. -/
theorem Idle.rest_applyCommitted (h : n.Idle) : Rest applyCommitted n := by
  unfold Rest applyCommitted
  rw [Ensures.get_bind_iff, Nat.sub_eq_zero_of_le h]
  exact (rest_compactIfLong (n.emit (.announce n.standing.lastApplied))).imp
    fun _ _ hm => ⟨hm.settings, hm.membership, hm.standing⟩

/-! ## Properties that are kept -/

/-- The property holds where the computation ends well. -/
def Secures (P : Node σ → Prop) (act : Act σ α) (n : Node σ) : Prop :=
  Ensures act n (fun _ m => P m) fun _ => True

/-- A property that is kept by standing for election, by beginning to lead, by applying
what a leader commits or a follower hears of, and by whatever does less. -/
structure Kept (P : Node σ → Prop) : Prop where
  abides {n m : Node σ} (h : Abides n m) (hn : P n) : P m
  stands {n : Node σ} (hn : P n) (hself : n.self ∈ n.membership.committed) :
    P (n.mapStanding (·.becomeCandidate n.self))
  leads {n : Node σ} (hn : P n) (hrole : n.standing.role = .candidate) : P n.crowned
  commits {n : Node σ} (index : ℕ) (hn : P n) (hrole : n.standing.role = .leader) :
    Secures P applyCommitted (n.mapStanding fun s => { s with commitIndex := index })
  follows {n : Node σ} (hrole : n.standing.role = .follower) :
    Secures P applyCommitted n

variable {P : Node σ → Prop}

omit [Storage σ] in
theorem Secures.andThen {act : Act σ α} {f : α → Act σ β} (h : Secures P act n)
    (hrest : ∀ a m, P m → Secures P (f a) m) : Secures P (act >>= f) n :=
  Ensures.andThen h hrest

namespace Kept

variable (hP : Kept P)
include hP

theorem still (h : Still n m) (hn : P n) : P m := hP.abides h.abides hn

theorem abide {act : Act σ α} (hn : P n) (h : Abide act n) : Secures P act n :=
  h.imp fun _ _ hm => hP.abides hm hn

theorem rest {act : Act σ α} (hn : P n) (h : Rest act n) : Secures P act n :=
  hP.abide hn h.abide

theorem advanceCommit (hn : P n) : Secures P advanceCommit n := by
  unfold Secures Node.advanceCommit
  rw [Ensures.get_bind_iff]
  refine Ensures.ite (fun _ => hn) fun hrole => ?_
  exact Ensures.ite (fun _ => hn) fun _ => hP.commits _ hn (not_not.mp hrole)

/-- A leader that added to its log commits what it can and sends the rest. -/
theorem spread (hn : P n) :
    Secures P (Node.advanceCommit >>= fun _ => replicateAll : Act σ Unit) n :=
  (hP.advanceCommit hn).andThen fun _ m hm => hP.rest hm (rest_replicateAll m)

/-! ## Elections -/

theorem becomeLeader (hn : P n) (hrole : n.standing.role = .candidate) :
    Secures P becomeLeader n := by
  have hcrowned := hP.leads hn hrole
  unfold Node.becomeLeader
  exact (hP.rest hcrowned (rest_onJournal n.crowned _)).andThen fun _ _ hm => hP.spread hm

/-- A contest that is won makes a leader of a candidate. -/
theorem leadIf {act : Act σ Bool} (hact : Ensures act n (fun won m => P m ∧
      (won = true → m.standing.role = .candidate)) fun _ => True) :
    Secures P (act >>= Node.leadIf) n := by
  refine Ensures.andThen hact fun won m hm => ?_
  cases won with
  | false => exact hm.1
  | true => exact hP.becomeLeader hm.1 (hm.2 rfl)

theorem stand (hn : P n) :
    Ensures stand n (fun won m => P m ∧ (won = true → m.standing.role = .candidate))
      fun _ => True := by
  unfold Node.stand
  rw [Ensures.get_bind_iff]
  refine Ensures.ite (fun _ => ⟨hn, fun hwon => absurd hwon (by simp)⟩) fun hself => ?_
  have hstands := hP.stands hn (not_not.mp hself)
  refine (rest_persist (n.mapStanding (·.becomeCandidate n.self))).andThen fun _ m hm => ?_
  have hturned := hm.trans (aside_afterRoleChange m n.standing.role).still
  have hends := hP.still hturned hstands
  have hrole : (m.afterRoleChange n.standing.role).standing.role = .candidate := by
    rw [hturned.standing]
    rfl
  refine Ensures.ite (fun _ => ⟨?_, fun _ => hrole⟩) fun _ => ⟨?_, ?_⟩
  · exact hP.still (still_emit _ _) hends
  · exact hP.still ((still_emit _ _).trans (still_emitAll _ _)) hends
  · exact fun hwon => absurd hwon (by simp)

theorem countVote (hn : P n) (peer term : ℕ) (reply : VoteReply) :
    Ensures (countVote peer term reply) n
      (fun won m => P m ∧ (won = true → m.standing.role = .candidate))
      fun _ => True := by
  unfold Node.countVote
  rw [Ensures.get_bind_iff]
  refine Ensures.ite (fun _ => ?_) fun _ => ?_
  · refine (abide_stepDown n reply.term).andThen fun _ m hm => ?_
    exact ⟨hP.abides hm hn, fun hwon => absurd hwon (by simp)⟩
  refine Ensures.ite (fun _ => ⟨hn, fun hwon => absurd hwon (by simp)⟩) fun hcounts => ?_
  refine ⟨hP.abides (abides_of_standing rfl rfl (Or.inl rfl)) hn, fun _ => ?_⟩
  exact not_not.mp (not_or.mp hcounts).1

theorem contest (hn : P n) {event : Event} (helects : event.Elects) :
    Ensures (contest event) n
      (fun won m => P m ∧ (won = true → m.standing.role = .candidate))
      fun _ => True := by
  cases event with
  | campaign => exact hP.stand hn
  | voteReply peer term reply => exact hP.countVote hn peer term reply
  | electionTimeout =>
      unfold Node.contest
      rw [Ensures.get_bind_iff]
      have hlost : ∀ m : Node σ, Still n m →
          P m ∧ (false = true → m.standing.role = .candidate) := fun m hm =>
        ⟨hP.still hm hn, fun hwon => absurd hwon (by simp)⟩
      refine Ensures.ite (fun _ => hlost n (.refl n)) fun _ => ?_
      refine Ensures.ite (fun _ => ?_) fun _ => hP.stand hn
      exact hlost _ (still_emit n _)
  | _ => exact helects.elim

/-! ## Requests -/

theorem voteRequest (hn : P n) (request : VoteRequest) :
    Secures P (handleVoteRequest request) n := by
  unfold handleVoteRequest
  refine (hP.rest (hP.abides (abides_answerVote n request) hn)
    (rest_persist _)).andThen fun _ m hm => ?_
  have hturned := hP.still (aside_afterRoleChange m n.standing.role).still hm
  exact Ensures.ite (fun _ => hP.still (still_emit _ _) hturned) fun _ => hturned

/-- What is applied after an answer to entries is what a follower hears of, or nothing. -/
theorem concludeAppend (hn : n.standing.role = .follower ∨ P n ∧ n.Idle)
    (before : Standing) (request : AppendRequest) (ticket : ℕ) (answer : AppendReply) :
    Secures P (concludeAppend before request ticket answer) n := by
  have hend : ∀ m : Node σ, Abides n m →
      Secures P (applyCommitted >>= fun _ => reply ticket (.append answer)) m := by
    intro m hm
    refine Secures.andThen ?_ fun _ k hk => hP.still (still_emit k _) hk
    rcases hn with hrole | ⟨hn, hidle⟩
    · exact hP.follows (hm.follower hrole)
    · exact hP.rest (hP.abides hm hn) (hm.indices.idle hidle).rest_applyCommitted
  unfold Node.concludeAppend
  refine (rest_persist n).andThen fun _ m hm => ?_
  have hturned := hm.trans (aside_afterRoleChange m before.role).still
  refine Ensures.ite (fun _ => ?_) fun _ => ?_
  · exact hend _ ((hturned.trans (still_emit _ _)).abides.trans (abides_refreshed _))
  · exact hend _ (hturned.abides.trans (abides_refreshed _))

theorem appendRequest (hn : P n) (hidle : n.Idle) (ticket : ℕ)
    (request : AppendRequest) :
    Secures P (handle (.appendRequest ticket request)) n := by
  rw [handle_appendRequest_eq]
  unfold Secures
  rw [Ensures.get_bind_iff]
  rcases lt_or_ge request.term n.standing.currentTerm with hlt | hle
  · rw [if_neg (not_lt.mpr hlt.le), Ensures.pure_bind_iff]
    refine Ensures.andThen_of_succeeds (ensures_answerAppend_of_lt hlt) ?_
    rintro answer m ⟨-, rfl⟩
    exact hP.concludeAppend (Or.inr ⟨hn, hidle⟩) _ request ticket answer
  · have hcurrent : Ensures (if n.standing.currentTerm < request.term then do
          modify (·.mapStanding (·.observeTerm request.term))
          persist
        else pure () : Act σ Unit) n
        (fun _ m => request.term = m.standing.currentTerm) fun _ => True := by
      refine Ensures.ite (fun _ => ?_) fun hnot => ?_
      · rw [Ensures.modify_bind_iff]
        refine (rest_persist _).imp fun _ m hm => ?_
        rw [hm.standing]
        exact (currentTerm_observeTerm hle).symm
      · exact le_antisymm (not_lt.mp hnot) hle
    refine hcurrent.andThen fun _ m hterm => ?_
    have hrole : (following m.standing request.term request.leader).role = .follower :=
      role_following hterm.le _
    refine ((ensures_answerAppend hterm).mono (fun _ _ h => h) fun _ _ => trivial).andThen ?_
    rintro answer k ⟨-, ⟨-, -, rfl⟩ | ⟨-, -, reach, j, -, rfl⟩⟩
    · exact hP.concludeAppend (Or.inl hrole) _ request ticket answer
    · exact hP.concludeAppend (Or.inl hrole) _ request ticket answer

/-- A follower that takes over a snapshot applies what it has committed beyond it. -/
theorem installSnapshot (hrole : n.standing.role = .follower) (request : InstallRequest) :
    Secures P (installSnapshot request) n := by
  rw [installSnapshot_eq]
  refine (rest_onJournal n _).andThen fun _ m hm => ?_
  refine (rest_onJournal m _).andThen fun _ k hk => ?_
  have hfollows : k.standing.role = .follower := by
    rw [(hm.trans hk).standing]
    exact hrole
  unfold adoptSnapshot
  rw [Ensures.get_bind_iff]
  cases k.recorder.restore request.data with
  | error e => trivial
  | ok recorder => exact hP.follows hfollows

theorem installRequest (hn : P n) (request : InstallRequest) :
    Secures P (handleInstallRequest request) n := by
  unfold Secures handleInstallRequest
  rw [Ensures.get_bind_iff]
  refine Ensures.ite (fun _ => hn) fun hle => ?_
  rw [Ensures.modify_bind_iff]
  have hrole : (following (n.standing.observeTerm request.term) request.term
      request.leader).role = .follower := role_following (le_observeTerm _ _) _
  refine (rest_persist _).andThen fun _ m hm => ?_
  have hturned := (hm.trans (aside_afterRoleChange m n.standing.role).still).trans
    (still_emit _ .resetElectionTimer)
  rw [Ensures.modify_bind_iff]
  refine Ensures.ite (fun _ => ?_) fun _ => ?_
  · have hfollows := (congrArg Standing.role hturned.standing).trans hrole
    exact (hP.installSnapshot hfollows request).andThen fun _ _ hk => hk
  · exact hP.still hturned (hP.abides (abides_following n _ _) hn)

/-! ## Clients and peers -/

theorem command (hn : P n) (ticket : ℕ) (payload : Bytes) :
    Secures P (handleCommand ticket payload) n := by
  unfold Secures handleCommand
  rw [Ensures.get_bind_iff]
  refine Ensures.ite (fun _ => hP.still (still_emit n _) hn) fun _ => ?_
  refine (rest_onJournal n _).andThen fun index m hm => ?_
  rw [Ensures.modify_bind_iff]
  exact hP.spread (hP.still ⟨hm.settings, hm.membership, hm.standing⟩ hn)

theorem change (hn : P n) (ticket : ℕ) (change : ServerChange) :
    Secures P (handleChange ticket change) n := by
  unfold Secures handleChange
  rw [Ensures.get_bind_iff]
  refine Ensures.ite (fun _ => hP.still (still_emit n _) hn) fun _ => ?_
  refine Ensures.ite (fun _ => hP.still (still_emit n _) hn) fun _ => ?_
  refine Ensures.ite (fun _ => hP.still (still_emit n _) hn) fun _ => ?_
  refine (rest_onJournal n _).andThen fun index m hm => ?_
  rw [Ensures.modify_bind_iff]
  have habides := hm.abides
  refine hP.spread (hP.abides ⟨habides.settings, habides.committed, ?_, habides.role⟩ hn)
  exact ⟨habides.indices.commit, habides.indices.applied⟩

theorem continueReplication (hn : P n) (peer : ℕ) :
    Secures P (continueReplication peer) n := by
  unfold Node.continueReplication
  refine (hP.advanceCommit hn).andThen fun _ m hm => ?_
  exact Ensures.ite (fun _ => hP.rest hm (rest_replicateTo m peer)) fun _ => hm

theorem replicationReply (hn : P n) (peer : ℕ) (batch : Batch)
    (response : Option Response) :
    Secures P (handleReplicationReply peer batch response) n := by
  have hrecorded : ∀ (m : Node σ) (change : Progress → Progress), P m →
      P (m.recordReply peer change) := fun m change hm =>
    hP.still (still_recordReply m peer change) hm
  unfold Secures handleReplicationReply
  rw [Ensures.get_bind_iff]
  refine Ensures.ite (fun _ => hn) fun _ => ?_
  rw [Ensures.modify_bind_iff]
  have hended := hrecorded n (fun p => { p with inFlight := false }) hn
  split
  · refine Ensures.ite (fun _ => hP.abide hended (abide_stepDown _ _)) fun _ => ?_
    exact hP.continueReplication (hrecorded _ _ hended) peer
  · refine Ensures.ite (fun _ => hP.abide hended (abide_stepDown _ _)) fun _ => ?_
    refine Ensures.ite (fun _ => ?_) fun _ => hP.continueReplication hended peer
    exact hP.continueReplication (hrecorded _ _ hended) peer
  · exact hended

/-! ## Events -/

/-- Every handler keeps the property, of a node with nothing left to apply. -/
theorem handle (hn : P n) (hidle : n.Idle) (event : Event) :
    Secures P (handle event) n := by
  cases event with
  | voteRequest ticket request =>
      exact (hP.voteRequest hn request).andThen fun _ m hm => hP.still (still_emit m _) hm
  | appendRequest ticket request => exact hP.appendRequest hn hidle ticket request
  | installRequest ticket request =>
      exact (hP.installRequest hn request).andThen fun _ m hm =>
        hP.still (still_emit m _) hm
  | command ticket payload => exact hP.command hn ticket payload
  | change ticket change => exact hP.change hn ticket change
  | voteReply peer term reply =>
      rw [handle_eq]
      exact hP.leadIf (hP.contest hn trivial)
  | replicationReply peer batch response =>
      exact hP.replicationReply hn peer batch response
  | campaign =>
      rw [handle_eq]
      exact hP.leadIf (hP.contest hn trivial)
  | electionTimeout =>
      rw [handle_eq]
      exact hP.leadIf (hP.contest hn trivial)
  | heartbeat => exact hP.rest hn (rest_replicateAll n)

end Kept

end Node

end Consensus
