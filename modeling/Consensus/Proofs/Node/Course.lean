import Mathlib.Logic.Relation
import Consensus.Node.Step
import Consensus.Proofs.Backing
import Consensus.Proofs.Node.Dues
import Consensus.Proofs.Node.Standing

/-!
# What one event can do

Handling an event is a course of deeds.  The node first takes the event in: it
turns to another term or role and stores that, counts a vote, adds to its log or
replaces it.  A leader may then find that more is committed.  What follows is
carried out at last: entries are applied, the log is compacted, requests and
answers leave.  A write that fails ends the course where it is.

Each deed comes with all that the handlers check before it, and whatever holds
of every deed holds of every event.  So a law about a single node is a case
analysis here, for any kind of disk, and no handler needs to be opened for it.
-/

namespace Consensus

/-- The term and the sender of a request that only leaders send. -/
def Event.leader? : Event → Option (ℕ × ℕ)
  | .appendRequest _ request => some (request.term, request.leader)
  | .installRequest _ request => some (request.term, request.leader)
  | _ => none

/-- The term that a reply brings. -/
def Event.replyTerm? : Event → Option ℕ
  | .voteReply _ _ reply => some reply.term
  | .replicationReply _ _ (some (.appendEntries reply)) => some reply.term
  | .replicationReply _ _ (some (.installSnapshot reply)) => some reply.term
  | _ => none

/-- The events at which a node may be elected. -/
def Event.Elects : Event → Prop
  | .campaign => True
  | .electionTimeout => True
  | .voteReply _ _ _ => True
  | _ => False

theorem Event.Elects.leader? {event : Event} (h : event.Elects) :
    event.leader? = none := by
  cases event with
  | campaign => rfl
  | electionTimeout => rfl
  | voteReply => rfl
  | _ => exact h.elim

/-- Put the log on the base of a snapshot: what follows the snapshot stays if the
log agrees with it at its end. -/
def Journal.rebase {σ : Type} [Storage σ] [Counting] (index term : ℕ) :
    Journal.Act σ Unit := do
  if (← get).log.termAt? index = some term then
    Journal.compactTo index term
  else
    Journal.resetTo index term

theorem Journal.rebase_apply {σ : Type} [Storage σ] [Counting] (index term : ℕ)
    (j : Journal σ) : Journal.rebase index term j =
      if j.log.termAt? index = some term then Journal.compactTo index term j
      else Journal.resetTo index term j := by
  change (ite _ _ _ : Journal.Act σ Unit) j = _
  split <;> rfl

namespace Node

variable {σ : Type}

/-! ## States between deeds -/

section

variable (n : Node σ)

/-- The node standing elsewhere, with term and vote stored and a lost leadership
wound up. -/
def turned (s : Standing) (disk : σ) : Node σ :=
  { n with
    standing := s
    disk := disk
    persisted := s.hardState }.afterRoleChange n.standing.role

/-- The leader of the current term, before it appends anything. -/
def crowned [Counting] : Node σ :=
  let n := n.mapStanding (·.becomeLeader n.self)
  n.stopReplication.syncPeers n.targets (Counting.plus n.log.lastIndex 1)

/-- The leader with a caller waiting for a change. -/
def proposing [Counting] (index ticket : ℕ) (members : NodeSet) : Node σ :=
  let n := { n with
    membership := n.membership.onAppend index members
    changeWaiters :=
      n.changeWaiters.insert index ⟨n.standing.currentTerm, ticket⟩ }
  n.syncPeers n.targets (Counting.plus n.log.lastIndex 1)

/-- The node with the snapshot of a request for everything below. -/
def rebased (request : InstallRequest) (j : Journal σ) (recorder : Recorder) :
    Node σ :=
  { n with
    toJournal := j
    recorder := recorder
    membership := (Membership.settled request.members).refreshPending
      (j.log.entriesAfter request.lastIncludedIndex)
    standing := { n.standing with
      lastApplied := request.lastIncludedIndex
      commitIndex := max n.standing.commitIndex request.lastIncludedIndex } }

/-- A leader that is no member any more. -/
def retiring : Standing :=
  { n.standing with leader := none }.becomeFollower n.standing.currentTerm

/-- The index before the first entry that a peer needs. -/
def beforeNext [Counting] (progress : Progress) : ℕ :=
  Counting.minus (min progress.nextIndex (Counting.plus n.log.lastIndex 1)) 1

theorem beforeNext_eq (progress : Progress) :
    n.beforeNext progress = min progress.nextIndex (n.log.lastIndex + 1) - 1 := rfl

/-- The snapshot of what is applied, which ends in the given term. -/
def ownSnapshot (term : ℕ) : Snapshot :=
  ⟨n.standing.lastApplied, term, n.membership.committed, n.recorder.snapshot⟩

end

section

variable (n : Node σ) (s : Standing) (disk : σ)

theorem aside_turned : Aside
    { n with standing := s, disk := disk, persisted := s.hardState }
    (n.turned s disk) :=
  aside_afterRoleChange _ _

@[simp] theorem standing_turned : (n.turned s disk).standing = s :=
  (aside_turned n s disk).standing

@[simp] theorem log_turned : (n.turned s disk).log = n.log :=
  (aside_turned n s disk).log

@[simp] theorem disk_turned : (n.turned s disk).disk = disk :=
  (aside_turned n s disk).disk

@[simp] theorem journal_turned : (n.turned s disk).toJournal = ⟨n.log, disk⟩ :=
  (aside_turned n s disk).journal

@[simp] theorem persisted_turned :
    (n.turned s disk).persisted = s.hardState :=
  (aside_turned n s disk).persisted

@[simp] theorem self_turned : (n.turned s disk).self = n.self :=
  (aside_turned n s disk).self

theorem dues_turned (ticket : ℕ) :
    (n.turned s disk).dues ticket = n.dues ticket :=
  dues_afterRoleChange _ _ _

theorem aside_crowned [Counting] :
    Aside (n.mapStanding (·.becomeLeader n.self)) n.crowned :=
  (aside_stopReplication _).trans (aside_syncPeers _ _ _)

theorem dues_crowned [Counting] (ticket : ℕ) : n.crowned.dues ticket = n.dues ticket := by
  have hleads : (n.mapStanding (·.becomeLeader n.self)).dues ticket =
      n.dues ticket := rfl
  unfold crowned
  dsimp only
  rw [dues_syncPeers, dues_stopReplication, hleads]

@[simp] theorem standing_crowned [Counting] :
    n.crowned.standing = n.standing.becomeLeader n.self :=
  n.aside_crowned.standing

theorem retiring_eq : n.retiring =
    { n.standing with leader := none, role := .follower, votes := ∅ } :=
  becomeFollower_of_le le_rfl

end

variable [Storage σ] [Counting]

/-! ## Guards -/

/-- If the event may open an election, there is a newer term for it. -/
def HasNextTerm (event : Event) (n : Node σ) : Prop :=
  event = .campaign ∨ event = .electionTimeout →
    n.standing.currentTerm < Counting.nextTerm n.standing.currentTerm

/-- Where an event may make a node stand. -/
inductive Turns (n : Node σ) : Event → Standing → Prop
  /-- A candidate asks for a vote. -/
  | asked (ticket : ℕ) (request : VoteRequest) :
      Turns n (.voteRequest ticket request)
        (n.standing.answerVote n.log request).2
  /-- A leader was heard. -/
  | led {event : Event} {term leader : ℕ}
      (hleader : event.leader? = some (term, leader))
      (hterm : n.standing.currentTerm ≤ term) :
      Turns n event (following (n.standing.observeTerm term) term leader)
  /-- A reply is of a newer term. -/
  | overtaken {event : Event} {term : ℕ} (hreply : event.replyTerm? = some term)
      (hterm : n.standing.currentTerm < term) :
      Turns n event (n.standing.becomeFollower term)
  /-- An election is due, in a newer term. -/
  | stood {event : Event} (hevent : event = .campaign ∨
        event = .electionTimeout ∧ n.standing.role ≠ .leader)
      (hself : n.self ∈ n.membership.committed)
      (hterm : n.standing.currentTerm < Counting.nextTerm n.standing.currentTerm) :
      Turns n event (n.standing.becomeCandidate n.self)

/-- Term and vote are stored on the disk, where they are written only if they
changed. -/
inductive Stores (n : Node σ) (hard : HardState) : σ → Prop
  | held (hsame : hard = n.persisted) : Stores n hard n.disk
  | written {disk : σ} (hchanged : hard ≠ n.persisted)
      (hrun : Storage.saveHardState hard n.disk = .ok () disk) :
      Stores n hard disk

/-- What the end of a request tells about the progress of the peer. -/
inductive Learns (batch : Batch) :
    Option Response → (Progress → Progress) → Prop
  | ended (response : Option Response) :
      Learns batch response fun p => { p with inFlight := false }
  | appended {prevIndex count : ℕ} (hkind : batch.kind = .append prevIndex count)
      (reply : AppendReply) :
      Learns batch (some (.appendEntries reply)) fun p =>
        if reply.success then p.recordSuccess (Counting.plus prevIndex count)
        else p.recordMismatch reply.matchIndex
  | installed {index : ℕ} (hkind : batch.kind = .snapshot index)
      {reply : InstallReply} (hsuccess : reply.success = true) :
      Learns batch (some (.installSnapshot reply)) (·.recordSuccess index)

/-- What a peer with the progress needs next. -/
inductive Sends (n : Node σ) (progress : Progress) :
    Request → BatchKind → Prop
  | snapshot {snapshot : Snapshot}
      (hcompacted : progress.nextIndex ≤ n.log.snapshotIndex)
      (hload : Storage.loadSnapshot n.disk = .ok (some snapshot)) :
      Sends n progress (.installSnapshot (n.installRequest snapshot))
        (.snapshot snapshot.index)
  | entries {prevTerm : ℕ} (hheld : n.log.snapshotIndex < progress.nextIndex)
      (hterm : n.log.termAt? (n.beforeNext progress) = some prevTerm) :
      Sends n progress
        (.appendEntries (n.appendRequest (n.beforeNext progress) prevTerm))
        (.append (n.beforeNext progress)
          (n.appendRequest (n.beforeNext progress) prevTerm).entries.length)

/-- What the caller of an event may be answered, apart from what is applied. -/
inductive Answers (n : Node σ) : Event → ℕ → Answer → Prop
  | vote {ticket : ℕ} {request : VoteRequest} {reply : VoteReply}
      (hterm : reply.term = n.standing.currentTerm)
      (hgranted : reply.granted = true →
        n.standing.hardState = ⟨request.term, some request.candidate⟩) :
      Answers n (.voteRequest ticket request) ticket (.vote reply)
  | append {ticket : ℕ} (request : AppendRequest) {reply : AppendReply}
      (hterm : reply.term = n.standing.currentTerm) :
      Answers n (.appendRequest ticket request) ticket (.append reply)
  | install {ticket : ℕ} (request : InstallRequest) {reply : InstallReply}
      (hterm : reply.term = n.standing.currentTerm) :
      Answers n (.installRequest ticket request) ticket (.install reply)
  | command {ticket : ℕ} (payload : Bytes) (hrole : n.standing.role ≠ .leader) :
      Answers n (.command ticket payload) ticket
        (.refused (.notLeader n.standing.leader))
  | change {ticket : ℕ} (change : ServerChange)
      (hrole : n.standing.role ≠ .leader) :
      Answers n (.change ticket change) ticket
        (.change (.refused n.standing.leader))
  | busy {ticket : ℕ} (change : ServerChange) (hrole : n.standing.role = .leader)
      (hpending : n.membership.pending.isSome = true) :
      Answers n (.change ticket change) ticket (.change (.refused (some n.self)))
  | unchanged {ticket : ℕ} {change : ServerChange}
      (hrole : n.standing.role = .leader)
      (hpending : n.membership.pending.isSome = false)
      (hsame : n.membership.committed.isUnchangedBy change = true) :
      Answers n (.change ticket change) ticket (.change (.done n.self))

/-- A snapshot arrived that covers more than what is applied. -/
structure Admits (n : Node σ) (event : Event) (request : InstallRequest) :
    Prop where
  event : ∃ ticket, event = .installRequest ticket request
  role : n.standing.role = .follower
  term : request.term = n.standing.currentTerm
  new : n.standing.lastApplied < request.lastIncludedIndex

/-- Entries arrived that fit the log. -/
structure Takes (n : Node σ) (event : Event) (request : AppendRequest) :
    Prop where
  event : ∃ ticket, event = .appendRequest ticket request
  role : n.standing.role = .follower
  term : request.term = n.standing.currentTerm
  fits : n.log.matchesAt request.prevIndex request.prevTerm = true

/-- The log is due to be compacted, and ends its applied part in the term. -/
structure Overflows (n : Node σ) (term : ℕ) : Prop where
  long : n.settings.compactionThreshold < n.log.size
  new : n.log.snapshotIndex < n.standing.lastApplied
  term : n.log.termAt? n.standing.lastApplied = some term

/-! ## Deeds -/

/-- One deed of a node that takes an event in. -/
inductive Opens (event : Event) (n : Node σ) : Node σ → Prop
  | turned {s : Standing} {disk : σ} (hturns : n.Turns event s)
      (hstores : n.Stores s.hardState disk) : Opens event n (n.turned s disk)
  | waited : Opens event n (n.emit .resetElectionTimer)
  | counted {peer : ℕ} {reply : VoteReply}
      (hevent : event = .voteReply peer n.standing.currentTerm reply)
      (hrole : n.standing.role = .candidate) (hgranted : reply.granted = true) :
      Opens event n
        (n.mapStanding fun s => { s with votes := s.votes.insert peer })
  | crowned (hrole : n.standing.role = .candidate)
      (hquorum :
        n.membership.committed.hasQuorum n.standing.votes = true) :
      Opens event n n.crowned
  | noted {index : ℕ} {j : Journal σ} (hevent : event.Elects)
      (hrole : n.standing.role = .leader)
      (hrun : Journal.append n.standing.currentTerm .noop n.toJournal =
        .ok index j) :
      Opens event n { n with toJournal := j }
  | accepted {ticket index : ℕ} {payload : Bytes} {j : Journal σ}
      (hevent : event = .command ticket payload)
      (hrole : n.standing.role = .leader)
      (hrun : Journal.append n.standing.currentTerm (.command payload)
        n.toJournal = .ok index j) :
      Opens event n { n with
        toJournal := j
        commandWaiters :=
          n.commandWaiters.insert index ⟨n.standing.currentTerm, ticket⟩ }
  | proposed {ticket index : ℕ} {change : ServerChange} {j : Journal σ}
      (hevent : event = .change ticket change)
      (hrole : n.standing.role = .leader)
      (hpending : n.membership.pending.isSome = false)
      (hchanges : n.membership.committed.isUnchangedBy change = false)
      (hrun : Journal.append n.standing.currentTerm
        (.config (n.membership.committed.withChange change)) n.toJournal =
          .ok index j) :
      Opens event n ({ n with toJournal := j }.proposing index ticket
        (n.membership.committed.withChange change))
  | merged {request : AppendRequest} {reach : ℕ} {j : Journal σ}
      (htakes : n.Takes event request)
      (hrun : Journal.appendFromLeader request.prevIndex request.entries
        n.toJournal = .ok reach j) :
      Opens event n ({ n with
        toJournal := j
        standing := Replica.followCommit n.standing request.leaderCommit
          reach } : Node σ).refreshed
  | refreshed {ticket : ℕ} {request : AppendRequest}
      (hevent : event = .appendRequest ticket request) :
      Opens event n n.refreshed
  | rebased {request : InstallRequest} {disk : σ} {j : Journal σ}
      {recorder : Recorder} (hadmits : n.Admits event request)
      (hsaved : Storage.saveSnapshot request.snapshot n.disk = .ok () disk)
      (hrun : Journal.rebase request.lastIncludedIndex request.lastIncludedTerm
        ⟨n.log, disk⟩ = .ok () j)
      (hrestored : n.recorder.restore request.data = .ok recorder) :
      Opens event n (n.rebased request j recorder)
  | recorded {peer : ℕ} {batch : Batch} {response : Option Response}
      {change : Progress → Progress}
      (hevent : event = .replicationReply peer batch response)
      (hrole : n.standing.role = .leader)
      (hterm : batch.term = n.standing.currentTerm)
      (hlearns : Learns batch response change) :
      Opens event n (n.recordReply peer change)

/-- A leader finds that more is committed. -/
inductive Commits (event : Event) (n : Node σ) : Node σ → Prop
  | committed (hevent : event.leader? = none) (hrole : n.standing.role = .leader)
      (hmore : n.standing.commitIndex < n.majorityIndex)
      (hterm : n.log.termAt? n.majorityIndex = some n.standing.currentTerm) :
      Commits event n
        (n.mapStanding fun s => { s with commitIndex := n.majorityIndex })

/-- One deed of a node that does what follows from an event. -/
inductive Closes (event : Event) (n : Node σ) : Node σ → Prop
  | applied {entry : Entry}
      (hmore : n.standing.lastApplied < n.standing.commitIndex)
      (hentry : n.log.get? (n.standing.lastApplied + 1) = some entry) :
      Closes event n (n.applyEntry entry (n.standing.lastApplied + 1))
  | retired (hrole : n.standing.role = .leader)
      (hself : n.self ∉ n.membership.committed) :
      Closes event n (n.turned n.retiring n.disk)
  | announced (hdone : n.standing.commitIndex ≤ n.standing.lastApplied) :
      Closes event n (n.emit (.announce n.standing.lastApplied))
  | compacted {term : ℕ} {disk : σ} {j : Journal σ} (hlong : n.Overflows term)
      (hsaved : Storage.saveSnapshot (n.ownSnapshot term) n.disk = .ok () disk)
      (hrun : Journal.compactTo n.standing.lastApplied term ⟨n.log, disk⟩ =
        .ok () j) :
      Closes event n { n with toJournal := j }
  | dispatched {peer : ℕ} {progress : Progress} {request : Request}
      {kind : BatchKind} (hrole : n.standing.role = .leader)
      (hpeer : n.peers.get? peer = some progress)
      (hidle : progress.inFlight = false)
      (hsends : n.Sends progress request kind) :
      Closes event n (n.dispatch peer request kind)
  | campaigned (hevent : event = .campaign ∨ event = .electionTimeout)
      (hrole : n.standing.role = .candidate) :
      Closes event n (n.emitAll ((n.membership.committed.erase n.self).toList.map
        fun peer => .requestVote peer n.voteRequest))
  | answered {ticket : ℕ} {answer : Answer}
      (hanswers : n.Answers event ticket answer) :
      Closes event n (n.emit (.answer ticket answer))

/-- How a deed can fail, and the disk that it leaves. -/
inductive Breaks (event : Event) (n : Node σ) : σ → Prop
  | turning {s : Standing} {e : Error} {disk : σ} (hturns : n.Turns event s)
      (hchanged : s.hardState ≠ n.persisted)
      (hrun : Storage.saveHardState s.hardState n.disk = .error e disk) :
      Breaks event n disk
  | appending {payload : Payload} {e : Error} {j : Journal σ}
      (hrole : n.standing.role = .leader)
      (hrun : Journal.append n.standing.currentTerm payload n.toJournal =
        .error e j) :
      Breaks event n j.disk
  | merging {request : AppendRequest} {e : Error} {j : Journal σ}
      (htakes : n.Takes event request)
      (hrun : Journal.appendFromLeader request.prevIndex request.entries
        n.toJournal = .error e j) :
      Breaks event n j.disk
  | receiving {request : InstallRequest} {e : Error} {disk : σ}
      (hadmits : n.Admits event request)
      (hrun : Storage.saveSnapshot request.snapshot n.disk = .error e disk) :
      Breaks event n disk
  | rebasing {request : InstallRequest} {e : Error} {disk : σ} {j : Journal σ}
      (hadmits : n.Admits event request)
      (hsaved : Storage.saveSnapshot request.snapshot n.disk = .ok () disk)
      (hrun : Journal.rebase request.lastIncludedIndex request.lastIncludedTerm
        ⟨n.log, disk⟩ = .error e j) :
      Breaks event n j.disk
  | restoring {request : InstallRequest} {e : Error} {disk : σ} {j : Journal σ}
      (hadmits : n.Admits event request)
      (hsaved : Storage.saveSnapshot request.snapshot n.disk = .ok () disk)
      (hrun : Journal.rebase request.lastIncludedIndex request.lastIncludedTerm
        ⟨n.log, disk⟩ = .ok () j)
      (hrestored : n.recorder.restore request.data = .error e) :
      Breaks event n j.disk
  | applying (hmore : n.standing.lastApplied < n.standing.commitIndex)
      (hnone : n.log.get? (n.standing.lastApplied + 1) = none) :
      Breaks event n n.disk
  | measuring (hlong : n.settings.compactionThreshold < n.log.size)
      (hnew : n.log.snapshotIndex < n.standing.lastApplied)
      (hnone : n.log.termAt? n.standing.lastApplied = none) :
      Breaks event n n.disk
  | saving {term : ℕ} {e : Error} {disk : σ} (hlong : n.Overflows term)
      (hrun : Storage.saveSnapshot (n.ownSnapshot term) n.disk =
        .error e disk) :
      Breaks event n disk
  | compacting {term : ℕ} {e : Error} {disk : σ} {j : Journal σ}
      (hlong : n.Overflows term)
      (hsaved : Storage.saveSnapshot (n.ownSnapshot term) n.disk = .ok () disk)
      (hrun : Journal.compactTo n.standing.lastApplied term ⟨n.log, disk⟩ =
        .error e j) :
      Breaks event n j.disk
  | sending {peer : ℕ} {progress : Progress} (hrole : n.standing.role = .leader)
      (hpeer : n.peers.get? peer = some progress)
      (hnothing : ∀ request kind, ¬ n.Sends progress request kind) :
      Breaks event n n.disk

/-! ## Courses -/

/-- The node takes the event in, step by step. -/
abbrev Opening (event : Event) : Node σ → Node σ → Prop :=
  Relation.ReflTransGen (Opens event)

/-- The node does what follows from the event, step by step. -/
abbrev Closing (event : Event) : Node σ → Node σ → Prop :=
  Relation.ReflTransGen (Closes event)

/-- What follows once the event is taken in. -/
def Settling (event : Event) (n n' : Node σ) : Prop :=
  ∃ m, Relation.ReflGen (Commits event) n m ∧ Closing event m n'

/-- An event takes the node from one state to another. -/
def Course (event : Event) (n n' : Node σ) : Prop :=
  ∃ m, Opening event n m ∧ Settling event m n'

/-- What is left of a node when a deed fails.  Of its effects some may not have
been caused yet: whoever is answered by them waits still. -/
structure Fails (event : Event) (n n' : Node σ) : Prop where
  breaks : n.Breaks event n'.disk
  recorder : n'.recorder = n.recorder
  effects : n'.effects <+: n.effects
  dues : ∀ ticket, n'.dues ticket = n.dues ticket

/-- An event that comes to a bad end. -/
def Halts (event : Event) (n n' : Node σ) : Prop :=
  ∃ m, Course event n m ∧ Fails event m n'

section

variable {event : Event} {n m n' : Node σ}

theorem Closing.settling (h : Closing event n n') : Settling event n n' :=
  ⟨n, .refl, h⟩

theorem Settling.course (h : Settling event n n') : Course event n n' :=
  ⟨n, .refl, h⟩

theorem Opening.course (h : Opening event n n') : Course event n n' :=
  ⟨n', h, Closing.settling .refl⟩

theorem Settling.closing (h : Settling event n m) (h' : Closing event m n') :
    Settling event n n' := by
  obtain ⟨k, hcommits, hcloses⟩ := h
  exact ⟨k, hcommits, hcloses.trans h'⟩

theorem Course.closing (h : Course event n m) (h' : Closing event m n') :
    Course event n n' := by
  obtain ⟨k, hopening, hsettling⟩ := h
  exact ⟨k, hopening, hsettling.closing h'⟩

theorem Opening.then_course (h : Opening event n m) (h' : Course event m n') :
    Course event n n' := by
  obtain ⟨k, hopening, hsettling⟩ := h'
  exact ⟨k, h.trans hopening, hsettling⟩

omit [Storage σ] [Counting] in
theorem keeps_of_reflTransGen {R : Node σ → Node σ → Prop} {I : Node σ → Prop}
    (h : Relation.ReflTransGen R n n') (hstep : ∀ a b, R a b → I a → I b)
    (hn : I n) : I n' := by
  induction h with
  | refl => exact hn
  | tail _ hlast ih => exact hstep _ _ hlast ih

/-- What every deed keeps, a course keeps. -/
theorem Course.keeps {I : Node σ → Prop} (h : Course event n n')
    (hopens : ∀ a b, Opens event a b → I a → I b)
    (hcommits : ∀ a b, Commits event a b → I a → I b)
    (hcloses : ∀ a b, Closes event a b → I a → I b) (hn : I n) : I n' := by
  obtain ⟨m, hopening, k, hcommitting, hclosing⟩ := h
  have hm : I m := keeps_of_reflTransGen hopening hopens hn
  have hk : I k := by
    cases hcommitting with
    | refl => exact hm
    | single hstep => exact hcommits _ _ hstep hm
  exact keeps_of_reflTransGen hclosing hcloses hk

end

end Node

end Consensus
