import Consensus.Node.Recovery
import Consensus.Node.Step
import Consensus.Proofs.Counting
import Mathlib.Data.Nat.Notation

/-!
# Nodes that start, and what becomes of them

A node that starts over an empty disk, and the nodes that it becomes as it handles one
event after the other.
-/

namespace Consensus.Node

variable {σ : Type}

/-- The node that a start gives. -/
def started (settings : Settings) (log : Log) (base : NodeSet) (applied : ℕ)
    (hard : HardState) (d : Durable σ) : Node σ where
  log := log
  disk := d.disk
  standing := .restore hard applied
  settings := settings
  membership := .recover base log applied
  peers := ∅
  commandWaiters := ∅
  changeWaiters := ∅
  persisted := hard
  recorder := d.recorder
  effects := []

/-- The node that starts where nothing is stored yet. -/
def fresh (settings : Settings) (d : Durable σ) : Node σ :=
  started settings ⟨[], 0, 0⟩ (.ofList settings.members) 0 {} d

variable [Storage σ] [Counting]

/-- The node before each of the events, which are numbered from 0. -/
def along (n : Node σ) (event : ℕ → Event) : ℕ → Node σ
  | 0 => n
  | k + 1 => { (outcome (handle (event k)) (along n event k)).2 with effects := [] }

/-- What each of the events keeps holds to the last if it held at first. -/
theorem keeps_along {n : Node σ} {event : ℕ → Event} {k : ℕ} {I : Node σ → Prop} (h : I n)
    (hstep : ∀ j < k, I (n.along event j) → I (n.along event (j + 1))) :
    I (n.along event k) := by
  induction k with
  | zero => exact h
  | succ k ih =>
    have hbefore := ih fun j hlt => hstep j (Nat.lt_succ_of_lt hlt)
    exact hstep k (Nat.lt_succ_self k) hbefore

end Consensus.Node
