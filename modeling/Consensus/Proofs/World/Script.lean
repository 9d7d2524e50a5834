import Mathlib
import Consensus.Proofs.World.Basic

/-!
# Runs by script

A script says who moves: which packet is delivered, which node is asked for
something, stops or starts.  What then happens is computed.  A move that cannot
be made is passed over, so every script gives a run, and after its last move
nothing happens any more.
-/

namespace Consensus

/-- One line of a script. -/
inductive Move where
  /-- The packet that was sent as the given one arrives, counted from 0; a
  request gets the ticket. -/
  | deliver (packet ticket : ℕ)
  /-- A client hands in a command. -/
  | command (id ticket : ℕ) (payload : Bytes)
  /-- An operator asks for a change. -/
  | change (id ticket : ℕ) (change : ServerChange)
  /-- An election is wanted. -/
  | campaign (id : ℕ)
  /-- A heartbeat is due. -/
  | heartbeat (id : ℕ)
  /-- A node stops. -/
  | stop (id : ℕ)
  /-- A node starts with a fresh consumer. -/
  | start (id : ℕ) (settings : Settings)

namespace World

variable {S : Scope} {w : World} {id : ℕ} {event : Event}
  {origin : Option Origin}

/-- What the event does to the world, and that it happens, if the node is up. -/
def tell (w : World) (id : ℕ) (event : Event) (origin : Option Origin) :
    Action × World :=
  match w.place id with
  | .up n =>
    match Node.handle event n with
    | .ok () n' => (.event id event origin,
        w.after id (.up { n' with effects := [] }) origin n'.effects)
    | .error _ n' =>
        (.event id event origin, w.after id .failed origin n'.effects)
  | _ => (.idle, w)

theorem step_tell (harrives : w.Arrives S id event origin) :
    w.Step S (w.tell id event origin).1 (w.tell id event origin).2 := by
  unfold tell
  cases hplace : w.place id with
  | up n =>
      dsimp only
      cases hrun : Node.handle event n with
      | ok _ n' => exact .handled hplace harrives hrun
      | error _ n' => exact .failed hplace harrives hrun
  | _ => exact .idle

/-- What the packet tells the node that it is for. -/
def arrive (w : World) (ticket : ℕ) : Packet → Action × World
  | .request asker asked memo request =>
    match request.event? ticket with
    | some (_, event) => w.tell asked event (some ⟨asker, memo, ticket⟩)
    | none => (.idle, w)
  | .response asker asked (.vote term) (.vote reply) =>
      w.tell asker (.voteReply asked term reply) none
  | .response asker asked (.batch batch) response =>
      w.tell asker (.replicationReply asked batch (some response)) none
  | _ => (.idle, w)

theorem step_arrive {packet : Packet} (hsent : packet ∈ w.sent) (ticket : ℕ) :
    w.Step S (w.arrive ticket packet).1 (w.arrive ticket packet).2 := by
  unfold arrive
  split
  · split
    · next hevent => exact step_tell (.request hsent hevent)
    · exact .idle
  · exact step_tell (.voteReply hsent)
  · exact step_tell (.replicationReply hsent)
  · exact .idle

/-- What a start does to the world, if it is allowed and the node is down. -/
def begin (w : World) (id : ℕ) (settings : Settings) : Action × World :=
  match w.place id with
  | .down d =>
    match Node.recover settings ⟨d.disk, {}⟩ with
    | .ok n _ => (.start id settings {}, w.put id (.up n))
    | .error _ d' => (.start id settings {}, w.put id (.down d'))
  | _ => (.idle, w)

theorem step_begin {settings : Settings} (hallows : S.Allows id settings) :
    w.Step S (w.begin id settings).1 (w.begin id settings).2 := by
  unfold begin
  cases hplace : w.place id with
  | down d =>
      dsimp only
      cases hrun : Node.recover settings ⟨d.disk, {}⟩ with
      | ok n _ => exact .started hplace hallows (Or.inr rfl) hrun
      | error _ d' => exact .refused hplace hallows (Or.inr rfl) hrun
  | _ => exact .idle

instance [Decidable S.fixed] (id : ℕ) (settings : Settings) :
    Decidable (S.Allows id settings) := by
  unfold Scope.Allows
  infer_instance

variable (S) [Decidable S.fixed]

/-- What a line of a script does to the world. -/
def follow (w : World) : Move → Action × World
  | .deliver packet ticket =>
    match w.sent[packet]? with
    | some packet => w.arrive ticket packet
    | none => (.idle, w)
  | .command id ticket payload => w.tell id (.command ticket payload) none
  | .change id ticket change =>
    if S.fixed then (.idle, w) else w.tell id (.change ticket change) none
  | .campaign id => w.tell id .campaign none
  | .heartbeat id => w.tell id .heartbeat none
  | .stop id =>
    match w.place id with
    | .up n => (.stop id, w.put id (.down n.durable))
    | _ => (.idle, w)
  | .start id settings =>
    if S.Allows id settings then w.begin id settings else (.idle, w)

theorem step_follow (move : Move) :
    w.Step S (w.follow S move).1 (w.follow S move).2 := by
  cases move with
  | deliver packet ticket =>
      unfold follow
      dsimp only
      cases hsent : w.sent[packet]? with
      | some found => exact step_arrive (List.mem_of_getElem? hsent) ticket
      | none => exact .idle
  | command id ticket payload => exact step_tell (.command ticket payload)
  | change id ticket change =>
      unfold follow
      dsimp only
      split
      · exact .idle
      · next hchanges => exact step_tell (.change hchanges ticket change)
  | campaign id => exact step_tell .campaign
  | heartbeat id => exact step_tell .heartbeat
  | stop id =>
      unfold follow
      dsimp only
      cases hplace : w.place id with
      | up n => exact .stopped hplace
      | _ => exact .idle
  | start id settings =>
      unfold follow
      dsimp only
      split
      · next hallows => exact step_begin hallows
      · exact .idle

/-- Nothing has happened. -/
def blank : World where
  place _ := .down ⟨{}, {}⟩
  sent := []

theorem initial_blank : blank.Initial :=
  ⟨rfl, fun _ => ⟨{}, rfl, rfl⟩⟩

/-- The world after so many lines of the script. -/
def scripted (script : List Move) : ℕ → World
  | 0 => blank
  | k + 1 =>
    match script[k]? with
    | some move => ((scripted script k).follow S move).2
    | none => scripted script k

/-- Only a line that starts a node makes it start. -/
theorem start_of_follow {move : Move} {settings : Settings} {recorder : Recorder}
    (h : (w.follow S move).1 = .start id settings recorder) :
    ∃ given, move = .start id given := by
  have htell : ∀ other event origin,
      (w.tell other event origin).1 ≠ .start id settings recorder := by
    intro other event origin
    unfold tell
    split
    · split <;> simp
    · simp
  cases move with
  | deliver packet ticket =>
      unfold follow at h
      dsimp only at h
      split at h
      · unfold arrive at h
        split at h
        · split at h
          · exact absurd h (htell _ _ _)
          · exact absurd h (by simp)
        · exact absurd h (htell _ _ _)
        · exact absurd h (htell _ _ _)
        · exact absurd h (by simp)
      · exact absurd h (by simp)
  | change other ticket change =>
      unfold follow at h
      dsimp only at h
      split at h
      · exact absurd h (by simp)
      · exact absurd h (htell _ _ _)
  | stop other =>
      unfold follow at h
      dsimp only at h
      split at h <;> exact absurd h (by simp)
  | start other given =>
      unfold follow begin at h
      dsimp only at h
      split at h
      · split at h
        · split at h
          · obtain ⟨rfl, -⟩ := Action.start.inj h
            exact ⟨given, rfl⟩
          · obtain ⟨rfl, -⟩ := Action.start.inj h
            exact ⟨given, rfl⟩
        · exact absurd h (by simp)
      · exact absurd h (by simp)
  | _ => exact absurd h (htell _ _ _)

end World

/-- The run that follows the script. -/
def Run.ofScript (S : Scope) [Decidable S.fixed] (script : List Move) :
    Run S where
  world := World.scripted S script
  action k :=
    match script[k]? with
    | some move => ((World.scripted S script k).follow S move).1
    | none => .idle
  initial := World.initial_blank
  step k := by
    rw [World.scripted]
    cases script[k]? with
    | some move => exact World.step_follow S move
    | none => exact .idle

/-! ## Looking at a place -/

/-- There is a node that passes the test. -/
def Place.passes (place : Place) (test : Node Memory → Bool) : Bool :=
  match place with
  | .up n => test n
  | _ => false

theorem Place.exists_up_of_passes {place : Place} {test : Node Memory → Bool}
    (h : place.passes test = true) : ∃ n, place = .up n ∧ test n = true := by
  cases place with
  | up n => exact ⟨n, rfl, h⟩
  | _ => exact absurd h Bool.false_ne_true

theorem Place.of_passes {place : Place} {test : Node Memory → Bool}
    (h : place.passes test = true) {n : Node Memory} (hup : place = .up n) :
    test n = true := by
  rw [hup] at h
  exact h

end Consensus
