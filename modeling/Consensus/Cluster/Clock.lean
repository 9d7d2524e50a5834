import Consensus.Cluster.Delivery

/-!
# Time passes

Timers fire in the order in which they are due: election timers of nodes that do not lead,
heartbeats of those that do, and the patience of senders and callers. All that are due at one
moment fire before anything that follows from one of them, and all that follows happens before
time passes on.
-/

namespace Consensus.Cluster

variable {σ : Type}

/-- The timers that are set, with the times when they are due. -/
def alarms (c : Cluster σ) : List (Nat × Alarm) :=
  let hosts := (c.hosts.rows.filter fun row => row.2.isRunning).map fun (id, h) =>
    if h.leads then (h.heartbeatAt, .heartbeat id) else (h.electionAt, .election id)
  let flights := c.flights.rows.filterMap fun (id, f) =>
    f.deadline.map fun due => (due, .flight id)
  let tickets := c.pendings.rows.filterMap fun (id, p) =>
    p.deadline.map fun due => (due, .ticket id)
  hosts ++ flights ++ tickets

/-- When the next timer is due. -/
def nextDue? (c : Cluster σ) : Option Nat := (c.alarms.map Prod.fst).min?

/-- Let time pass up to `due`, when the timers that are due then fire. -/
def ring (c : Cluster σ) (due : Nat) : Cluster σ :=
  let ringing := c.alarms.filter fun alarm => alarm.1 == due
  ringing.foldl (fun c alarm => c.enqueue (.alarm alarm.2)) { c with now := max c.now due }

/-- How many things may happen at one moment. -/
def momentLimit : Nat := 100000

/-- At how many moments timers may fire in one stretch of time. -/
def alarmLimit : Nat := 10000000

variable [Storage σ]

/-- Let time pass up to `time`, with timers firing at no more than `limit` moments. -/
def advanceTo (time : Nat) : Nat → Cluster σ → Cluster σ
  | 0, c => { c with now := max c.now time }
  | limit + 1, c =>
    let c := c.settle momentLimit
    match c.nextDue? with
    | some due =>
      if due ≤ time then advanceTo time limit (c.ring due)
      else { c with now := max c.now time }
    | none => { c with now := max c.now time }

/-- Let `ms` milliseconds pass. -/
def advance (c : Cluster σ) (ms : Nat) : Cluster σ := advanceTo (c.now + ms) alarmLimit c

/-- Let time pass until `done` holds, with timers firing at no more than `limit` moments. -/
def advanceUntil (done : Cluster σ → Bool) : Nat → Cluster σ → Cluster σ
  | 0, c => c
  | limit + 1, c =>
    let c := c.settle momentLimit
    if done c then c
    else
      match c.nextDue? with
      | some due => advanceUntil done limit (c.ring due)
      | none => c

end Consensus.Cluster
