import Consensus.Node.Step
import Consensus.Proofs.Node.Installing
import Consensus.Proofs.Node.Serving

/-!
# Every event is handled soundly

All handlers together: an event that is backed takes a node to a later ledger,
and whatever the node does to the outside meanwhile is backed by that ledger.
The effects are then taken from the node before the next event.
-/

namespace Consensus

/-- What a node says is backed, be it in passing or as its answer in the end. -/
def Effect.Told (S : Scope) (ℓ : Ledger) (id applied : ℕ) (event : Event)
    (effect : Effect) : Prop :=
  effect.Backed S ℓ id applied ∨
    ∃ ticket answer, effect = .answer ticket answer ∧
      answer.Backed ℓ id event

namespace Node

variable {S : Scope} {ℓ : Ledger} {id : ℕ} {n n' : Node Memory} {event : Event}

/-- The node after its effects were taken from it. -/
def drained (n : Node Memory) : Node Memory := { n with effects := [] }

theorem Tracks.drained (h : Tracks S ℓ id n) : Tracks S ℓ id n.drained :=
  { h with truthful := fun _ heffect => absurd heffect List.not_mem_nil }

theorem Rests.drained {given : Settings} {commit boundary : ℕ}
    (h : Rests S ℓ id given commit boundary n) :
    Rests S ℓ id given commit boundary n.drained where
  tracks := h.tracks.drained
  settled := ⟨h.settled.applied, h.settled.persisted⟩
  settings := h.settings
  commit := h.commit
  boundary := h.boundary

/-- Where the log starts after the event, if nothing is compacted. -/
def boundaryOf (n : Node Memory) : Event → ℕ
  | .installRequest _ request => n.boundaryAfter request
  | _ => n.log.snapshotIndex

/-- Only a snapshot that spells no record makes a node fail. -/
def Stumbles (n : Node Memory) : Event → Prop
  | .installRequest _ request => n.Unreadable request
  | _ => False

/-- The event takes the node from one ledger to a later one.  Neither the ledger
nor the commit index depend on when logs are compacted. -/
structure Advances (S : Scope) (ℓ ℓ' : Ledger) (id commit : ℕ) (n : Node Memory)
    (event : Event) : Prop where
  moves : ℓ.Moves id ℓ'
  sound : ℓ'.Sound S
  handled : ∀ threshold,
    Ensures (Node.handle event) (n.withThreshold threshold)
      (fun _ n' => Rests S ℓ' id (n.withThreshold threshold).settings commit
        (n.boundaryOf event) n'.drained ∧ ¬ n.Stumbles event ∧
        ∀ effect ∈ n'.effects, effect.Told S ℓ' id n'.standing.lastApplied event)
      fun n' => n.Stumbles event ∧
        ∀ effect ∈ n'.effects, effect.Told S ℓ' id n.standing.lastApplied event

theorem Truthful.told {effects : List Effect} {applied : ℕ}
    (h : Truthful S ℓ id applied effects) :
    ∀ effect ∈ effects, effect.Told S ℓ id applied event :=
  fun effect heffect => Or.inl (h effect heffect)

/-- An event that is not answered in the end. -/
theorem Handled.advances {answered : Ledger → Unit → Prop}
    (h : Handled S ℓ id n (Node.handle event) (n.boundaryOf event) answered
      False)
    (hcalm : ¬ n.Stumbles event) :
    ∃ ℓ' commit, Advances S ℓ ℓ' id commit n event := by
  obtain ⟨ℓ', commit, hmoves, hsound, hact⟩ := h
  exact ⟨ℓ', commit, hmoves, hsound, fun threshold => (hact threshold).mono
    (fun _ n' hn' => ⟨hn'.1.drained, hcalm, hn'.1.tracks.truthful.told⟩)
    fun n' hn' => hn'.1.elim⟩

/-- An event that is answered in the end. -/
theorem Handled.advances_of_answer {α : Type} {act : Act Memory α}
    {answered : Ledger → α → Prop}
    (h : Handled S ℓ id n act (n.boundaryOf event) answered (n.Stumbles event))
    (ticket : ℕ) (answer : α → Answer)
    (hanswer : ∀ ℓ' a, answered ℓ' a →
      (answer a).Backed ℓ' id event ∧ ¬ n.Stumbles event)
    (hhandle : Node.handle event =
      act >>= fun a => Node.reply ticket (answer a)) :
    ∃ ℓ' commit, Advances S ℓ ℓ' id commit n event := by
  obtain ⟨ℓ', commit, hmoves, hsound, hact⟩ := h
  refine ⟨ℓ', commit, hmoves, hsound, fun threshold => ?_⟩
  rw [hhandle]
  refine Ensures.bind ((hact threshold).mono ?_
    fun n' hn' => ⟨hn'.1, Truthful.told hn'.2⟩)
  rintro a n' ⟨hrests, hgiven⟩
  obtain ⟨hbacked, hcalm⟩ := hanswer ℓ' a hgiven
  refine ⟨hrests.drained, hcalm, fun effect heffect => ?_⟩
  have hcases : effect ∈ n'.effects ++ [.answer ticket (answer a)] := heffect
  rw [List.mem_append, List.mem_singleton] at hcases
  rcases hcases with hbefore | rfl
  · exact Or.inl (hrests.tracks.truthful effect hbefore)
  · exact Or.inr ⟨ticket, answer a, rfl, hbacked⟩

theorem Ready.advances (h : Ready S ℓ id n) (hsound : ℓ.Sound S)
    (hbacked : event.Backed S ℓ id) :
    ∃ ℓ' commit, Advances S ℓ ℓ' id commit n event := by
  cases event with
  | voteRequest ticket request =>
      exact (h.handled_voteRequest hsound hbacked).advances_of_answer
        ticket .vote (fun _ _ hgranted => ⟨hgranted, not_false⟩) rfl
  | appendRequest ticket request =>
      exact (h.handled_appendRequest hsound hbacked).advances_of_answer
        ticket .append (fun _ _ hsuccess => ⟨hsuccess, not_false⟩) rfl
  | installRequest ticket request =>
      exact (h.handled_installRequest hsound hbacked).advances_of_answer
        ticket .install (fun _ _ hsuccess => hsuccess) rfl
  | command ticket payload =>
      exact (h.handled_command hsound ticket payload).advances not_false
  | change ticket change =>
      exact (h.handled_change hsound hbacked ticket change).advances not_false
  | voteReply peer term reply =>
      exact (h.handled_voteReply hsound hbacked).advances not_false
  | replicationReply peer batch response =>
      refine Handled.advances (h.handled_replicationReply hsound fun r hr => ?_)
        not_false
      subst hr
      exact hbacked
  | campaign => exact (h.handled_startElection hsound).advances not_false
  | electionTimeout =>
      exact (h.handled_electionTimeout hsound).advances not_false
  | heartbeat => exact (h.handled_heartbeat hsound).advances not_false

end Node

end Consensus
