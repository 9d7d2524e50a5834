import Consensus.Cluster.Handle
import Consensus.Node.Recovery
import Consensus.Node.Step
import Consensus.Proofs.Counting
import Consensus.Proofs.Ledger.Basic
import Consensus.Storage.Memory
import Mathlib.Logic.Function.Basic

/-!
# Runs of any number of nodes

Nodes handle events one at a time, each whenever it likes.  A packet that was
sent stays around, so it may arrive late, out of order, more than once or never,
and at a node that was stopped and started again since.  A request may also end
without a response.  A node stops between two events and starts again over its
own disk, with a fresh consumer or with the one that outlived it.

Nothing is said about time, about fairness, or about which nodes are up.  So
what holds in every run holds whatever a network, a clock and a scheduler do.
-/

namespace Consensus

/-! ## What travels -/

/-- What a node remembers of a request, and gets back with the response: the
term of its candidacy, or what a replicator carried. -/
inductive Memo where
  | vote (term : ℕ)
  | batch (batch : Batch)

/-- What travels between two nodes. -/
inductive Packet where
  /-- The asker sends a request. -/
  | request (asker asked : ℕ) (memo : Memo) (request : Request)
  /-- The asked node sends its response to a request. -/
  | response (asker asked : ℕ) (memo : Memo) (response : Response)

/-- The request that an event came from, and the ticket that its answer names. -/
structure Origin where
  asker : ℕ
  memo : Memo
  ticket : ℕ

/-- What an effect sends.  An answer goes to another node if it is for the
request that is being handled. -/
def Effect.packet? (id : ℕ) (origin : Option Origin) : Effect → Option Packet
  | .requestVote peer request =>
      some (.request id peer (.vote request.term) (.requestVote request))
  | .dispatch peer request batch =>
      some (.request id peer (.batch batch) request)
  | .answer ticket given =>
      match origin with
      | some asked =>
          if ticket = asked.ticket then
            some (.response asked.asker id asked.memo given.toResponse)
          else none
      | none => none
  | _ => none

/-! ## Where nodes are -/

/-- A node, or what is left of it. -/
inductive Place where
  /-- It waits for an event. -/
  | up (node : Node Memory)
  /-- It stopped between two events, or never started. -/
  | down (durable : Durable Memory)
  /-- An event was its last. -/
  | failed

/-- All nodes, and every packet that was ever sent. -/
structure World where
  place : ℕ → Place
  sent : List Packet

/-- Before any node starts. -/
structure World.Initial (w : World) : Prop where
  sent : w.sent = []
  place : ∀ id, ∃ recorder : Recorder, recorder.record = {} ∧
    w.place id = .down ⟨{}, recorder⟩

/-- The node is told of the event.  Packets are there as soon as they are sent
and for good; clients, operators and timers may act at any moment. -/
inductive World.Arrives (S : Scope) (w : World) (id : ℕ) :
    Event → Option Origin → Prop
  | request {asker ticket : ℕ} {memo : Memo} {request : Request}
      {kind : CallKind} {event : Event}
      (hsent : .request asker id memo request ∈ w.sent)
      (hevent : request.event? ticket = some (kind, event)) :
      Arrives S w id event (some ⟨asker, memo, ticket⟩)
  | voteReply {peer term : ℕ} {reply : VoteReply}
      (hsent : .response id peer (.vote term) (.vote reply) ∈ w.sent) :
      Arrives S w id (.voteReply peer term reply) none
  | replicationReply {peer : ℕ} {batch : Batch} {response : Response}
      (hsent : .response id peer (.batch batch) response ∈ w.sent) :
      Arrives S w id (.replicationReply peer batch (some response)) none
  | lost {peer : ℕ} {batch : Batch} {request : Request}
      (hsent : .request id peer (.batch batch) request ∈ w.sent) :
      Arrives S w id (.replicationReply peer batch none) none
  | command (ticket : ℕ) (payload : Bytes) :
      Arrives S w id (.command ticket payload) none
  | change (hchanges : ¬ S.fixed) (ticket : ℕ) (change : ServerChange) :
      Arrives S w id (.change ticket change) none
  | campaign : Arrives S w id .campaign none
  | electionTimeout : Arrives S w id .electionTimeout none
  | heartbeat : Arrives S w id .heartbeat none

/-- The settings that a node may start with: those of the cluster, or none of its
members if a leader may add it. -/
def Scope.Allows (S : Scope) (id : ℕ) (settings : Settings) : Prop :=
  settings.nodeId = id ∧
    (NodeSet.ofList settings.members = S.members ∨
      ¬ S.fixed ∧ settings.members = [])

/-- The consumer that a node may start with: the old one if it is durable, or a
fresh one. -/
def Recorder.Replaces (recorder old : Recorder) : Prop :=
  recorder = old ∧ old.durable = true ∨ recorder.record = {}

/-! ## Steps and runs -/

/-- What happens in one step. -/
inductive Action where
  /-- A node handles an event. -/
  | event (id : ℕ) (event : Event) (origin : Option Origin)
  /-- A node stops. -/
  | stop (id : ℕ)
  /-- A node starts. -/
  | start (id : ℕ) (settings : Settings) (recorder : Recorder)
  | idle

/-- The world after a node handled an event and caused the effects. -/
def World.after (w : World) (id : ℕ) (place : Place) (origin : Option Origin)
    (effects : List Effect) : World where
  place := Function.update w.place id place
  sent := w.sent ++ effects.filterMap (·.packet? id origin)

/-- The world with one node elsewhere. -/
def World.put (w : World) (id : ℕ) (place : Place) : World :=
  { w with place := Function.update w.place id place }

section

variable (w : World) {id other : ℕ} (place : Place) (origin : Option Origin)
  (effects : List Effect)

@[simp] theorem World.place_after_self :
    (w.after id place origin effects).place id = place := by
  simp [World.after]

@[simp] theorem World.place_after_of_ne (hne : other ≠ id) :
    (w.after id place origin effects).place other = w.place other := by
  simp [World.after, hne]

@[simp] theorem World.place_put_self : (w.put id place).place id = place := by
  simp [World.put]

@[simp] theorem World.place_put_of_ne (hne : other ≠ id) :
    (w.put id place).place other = w.place other := by
  simp [World.put, hne]

variable {w place origin effects} {p : Place}

theorem World.place_after_cases (h : (w.after id place origin effects).place other = p) :
    other = id ∧ place = p ∨ w.place other = p := by
  by_cases hsame : other = id
  · subst hsame
    rw [World.place_after_self] at h
    exact Or.inl ⟨rfl, h⟩
  · rw [World.place_after_of_ne _ _ _ _ hsame] at h
    exact Or.inr h

theorem World.place_put_cases (h : (w.put id place).place other = p) :
    other = id ∧ place = p ∨ w.place other = p := by
  by_cases hsame : other = id
  · subst hsame
    rw [World.place_put_self] at h
    exact Or.inl ⟨rfl, h⟩
  · rw [World.place_put_of_ne _ _ hsame] at h
    exact Or.inr h

end

/-- One step of the world. -/
inductive World.Step (S : Scope) (w : World) : Action → World → Prop
  | handled {id : ℕ} {event : Event} {origin : Option Origin}
      {n n' : Node Memory} (hup : w.place id = .up n)
      (harrives : w.Arrives S id event origin)
      (hrun : Node.handle event n = .ok () n') :
      Step S w (.event id event origin)
        (w.after id (.up { n' with effects := [] }) origin n'.effects)
  | failed {id : ℕ} {event : Event} {origin : Option Origin}
      {n n' : Node Memory} {e : Error} (hup : w.place id = .up n)
      (harrives : w.Arrives S id event origin)
      (hrun : Node.handle event n = .error e n') :
      Step S w (.event id event origin) (w.after id .failed origin n'.effects)
  | stopped {id : ℕ} {n : Node Memory} (hup : w.place id = .up n) :
      Step S w (.stop id) (w.put id (.down n.durable))
  | started {id : ℕ} {settings : Settings} {recorder : Recorder}
      {d d' : Durable Memory} {n : Node Memory} (hdown : w.place id = .down d)
      (hallows : S.Allows id settings) (hreplaces : recorder.Replaces d.recorder)
      (hrun : Node.recover settings ⟨d.disk, recorder⟩ = .ok n d') :
      Step S w (.start id settings recorder) (w.put id (.up n))
  | refused {id : ℕ} {settings : Settings} {recorder : Recorder}
      {d d' : Durable Memory} {e : Error} (hdown : w.place id = .down d)
      (hallows : S.Allows id settings) (hreplaces : recorder.Replaces d.recorder)
      (hrun : Node.recover settings ⟨d.disk, recorder⟩ = .error e d') :
      Step S w (.start id settings recorder) (w.put id (.down d'))
  | idle : Step S w .idle w

/-- A run: the world at every moment, and what happens between. -/
structure Run (S : Scope) where
  world : ℕ → World
  action : ℕ → Action
  initial : (world 0).Initial
  step : ∀ k, (world k).Step S (action k) (world (k + 1))

/-- All nodes start with the same members, and no change is asked for. -/
def Scope.stays (members : NodeSet) : Scope := ⟨members, True⟩

/-- Nodes start with the same members or with none, and changes may be asked
for. -/
def Scope.changes (members : NodeSet) : Scope := ⟨members, False⟩

instance (members : NodeSet) : Decidable (Scope.stays members).fixed :=
  inferInstanceAs (Decidable True)

instance (members : NodeSet) : Decidable (Scope.changes members).fixed :=
  inferInstanceAs (Decidable False)

namespace Run

variable {S : Scope}

/-- The node with the id is up at the moment. -/
def Up (r : Run S) (k id : ℕ) (n : Node Memory) : Prop :=
  (r.world k).place id = .up n

end Run

end Consensus
