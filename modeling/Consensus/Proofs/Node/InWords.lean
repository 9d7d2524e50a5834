import Consensus.Proofs.Node.Fresh
import Consensus.Proofs.Node.Room
import Consensus.Storage.Memory
import Mathlib

/-!
# Nodes that stay within words

A node counts in words from its start on.  As long as it has room for every event, it
goes through states in which it could be if it counted without bound.  Beyond the last
word it counts from 0 again, and a leader numbers its entries as if there were none.
-/

namespace Consensus

namespace Node

variable {σ : Type} [Storage σ]

/-- The node was started with the settings, over any disk, and has handled events since
that suit it, all without an error.  It counts in words, and had room for each event. -/
inductive InWords (settings : Settings) (suits : Event → Node σ → Prop) : Node σ → Prop
  | started {d d' : Durable σ} {n : Node σ}
      (hrun : @recover σ _ .words settings d = .ok n d')
      (hbelow : n.log.Below (wordBound - 1)) : InWords settings suits n
  | handled {event : Event} {n : Node σ} (hn : InWords settings suits n)
      (hsuits : suits event n) (hroom : n.HasRoom event)
      (hwell : (outcome (@handle σ _ .words event) n).1 = .ok ()) :
      InWords settings suits
        { (outcome (@handle σ _ .words event) n).2 with effects := [] }

variable {n : Node σ} {settings : Settings} {suits : Event → Node σ → Prop}

/-- What holds of a node that starts without bound, and lasts from event to event, holds
of a node that stays within words. -/
theorem InWords.keeps {I : Node σ → Prop} (h : n.InWords settings suits)
    (hstart : ∀ n d d', recover settings d = .ok n d' → I n)
    (hstep : ∀ event n, suits event n → (outcome (handle event) n).1 = .ok () → I n →
      I { (outcome (handle event) n).2 with effects := [] }) : I n := by
  induction h with
  | @started d d' n hrun hbelow => exact hstart n d d' ((recover_words_iff hbelow).mp hrun)
  | @handled event n hn hsuits hroom hwell ih =>
    rw [hroom.outcome_words] at hwell ⊢
    exact hstep event n hsuits hwell ih

/-- A node that had room for one event after the other stays within words. -/
theorem InWords.along (h : n.InWords settings suits) {event : ℕ → Event} {k : ℕ}
    (hstep : ∀ j < k, suits (event j) (@Node.along σ _ .words n event j) ∧
      (@Node.along σ _ .words n event j).HasRoom (event j) ∧
      (outcome (@handle σ _ .words (event j)) (@Node.along σ _ .words n event j)).1 =
        .ok ()) :
    (@Node.along σ _ .words n event k).InWords settings suits := by
  refine @keeps_along σ _ .words _ _ _ _ h fun j hlt hn => ?_
  obtain ⟨hsuits, hroom, hwell⟩ := hstep j hlt
  exact hn.handled hsuits hroom hwell

/-! ## Past the last word -/

/-- A leader's snapshot, which says that it covers the last index of all. -/
def lastSnapshot : InstallRequest where
  term := 1
  leader := 2
  lastIncludedIndex := wordBound - 1
  lastIncludedTerm := 1
  members := .ofList [1, 2, 3]
  data := ({} : Record).encode

/-- A node takes the snapshot over, is elected and asked to add a server.  Then it hears
of another leader, is elected again and asked to add one more. -/
def overflowTurn : ℕ → Event
  | 0 => .installRequest 0 lastSnapshot
  | 1 => .campaign
  | 2 => .voteReply 2 2 ⟨2, true⟩
  | 3 => .change 7 (.add 4)
  | 4 => .appendRequest 0 ⟨3, 2, 0, 0, [], 0⟩
  | 5 => .campaign
  | 6 => .voteReply 2 4 ⟨4, true⟩
  | _ => .change 8 (.add 5)

/-- The node before each of these events, first of all one of three members. -/
def overflowing (d : Durable σ) : ℕ → Node σ :=
  @along σ _ .words (fresh { members := [1, 2, 3] } d) overflowTurn

/-- On a disk in memory the node gets as far as the first server to add. -/
theorem overflowing_well {k : ℕ} (hlt : k < 4) :
    (outcome (@handle Memory _ .words (overflowTurn k)) (overflowing ⟨{}, {}⟩ k)).1 =
      .ok () := by
  interval_cases k
  all_goals cbv

end Node

end Consensus
