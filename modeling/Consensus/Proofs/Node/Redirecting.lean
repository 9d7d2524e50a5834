import Consensus.Proofs.Node.Giving

/-!
# Who is sent on to another node

A caller of a command is told that another node leads only by a node that does not
lead when it gets the command, and such a node does nothing else.  No waiting caller
is ever told so: one that waits has its answer when its entry is applied, or learns
that the leadership was lost or that the node has shut down.
-/

namespace Consensus.Node

variable {σ : Type} {n n' : Node σ} {event : Event}

/-- Nobody was told that another node leads. -/
def SendsNobodyOn (n : Node σ) : Prop :=
  ∀ ticket hint, .answer ticket (.refused (.notLeader hint)) ∉ n.effects

namespace SendsNobodyOn

theorem of_new (h : n.effects = []) : n.SendsNobodyOn := by
  intro ticket hint hin
  rw [h] at hin
  exact absurd hin List.not_mem_nil

theorem stop (h : n.SendsNobodyOn) : n.stop.SendsNobodyOn := by
  intro ticket hint hin
  rcases answer_mem_stop hin with hbefore | hcommand | hchange
  · exact h ticket hint hbefore
  · exact absurd (Answer.refused.inj hcommand) (by simp)
  · exact Answer.noConfusion hchange

end SendsNobodyOn

variable [Storage σ]

/-! ## Deeds -/

theorem Opens.sendsNobodyOn (h : Opens event n n') (hn : n.SendsNobodyOn) :
    n'.SendsNobodyOn := by
  intro ticket hint hin
  rcases h.gives hin with hbefore | hlost | ⟨leader, hreplaced⟩
  · exact hn ticket hint hbefore
  · exact absurd (Answer.refused.inj hlost) (by simp)
  · exact Answer.noConfusion hreplaced

/-- Only the caller that hands a command in may be sent on. -/
theorem Closes.sendsNobodyOn (h : Closes event n n')
    (hevent : ∀ ticket payload, event ≠ .command ticket payload)
    (hn : n.SendsNobodyOn) : n'.SendsNobodyOn := by
  intro ticket hint hin
  rcases h.gives hin with hbefore | hgives
  · exact hn ticket hint hbefore
  · cases hgives with
    | answered hanswers =>
        cases hanswers with
        | command payload => exact hevent _ _ rfl

theorem Course.sendsNobodyOn (h : Course event n n')
    (hevent : ∀ ticket payload, event ≠ .command ticket payload)
    (hn : n.SendsNobodyOn) : n'.SendsNobodyOn := by
  refine h.keeps (fun _ _ hopens => hopens.sendsNobodyOn) (fun _ _ hcommits ha => ?_)
    (fun _ _ hcloses => hcloses.sendsNobodyOn hevent) hn
  cases hcommits with
  | committed => exact ha

theorem Fails.sendsNobodyOn (h : Fails event n n') (hn : n.SendsNobodyOn) :
    n'.SendsNobodyOn :=
  fun ticket hint hin => hn ticket hint (h.effects.subset hin)

/-! ## Events -/

/-- A node that does not lead sends the caller on and does nothing else. -/
theorem handle_command_of_follower {ticket : ℕ} {payload : Bytes}
    (hrole : n.standing.role ≠ .leader) :
    Node.handle (.command ticket payload) n = .ok ()
      (n.emit (.answer ticket (.refused (.notLeader n.standing.leader)))) := by
  have hhandle : Node.handle (.command ticket payload) n =
      (if n.standing.role ≠ .leader then
        reply ticket (.refused (.notLeader n.standing.leader)) else _ : Act σ Unit) n := rfl
  rw [hhandle, if_pos hrole]
  rfl

/-- A leader sends nobody on, whatever becomes of the command. -/
theorem ensures_command_of_leader (hn : n.Saved) (hnone : n.SendsNobodyOn)
    (hrole : n.standing.role = .leader) (ticket : ℕ) (payload : Bytes) :
    Ensures (Node.handle (.command ticket payload)) n
      (fun _ n' => n'.SendsNobodyOn) fun n' => n'.SendsNobodyOn := by
  unfold Node.handle handleCommand
  rw [Ensures.get_bind_iff, if_neg (not_not.mpr hrole)]
  refine Ensures.bind (Ensures.onJournal (fun index j _ => ?_) fun _ _ _ => hnone)
  rw [Ensures.modify_bind_iff]
  -- what follows is the same as at a heartbeat, where no caller could be sent on
  have hspread : Does .heartbeat
      (Settling .heartbeat (n.accepting j index ticket))
      (advanceCommit >>= fun _ => replicateAll) (n.accepting j index ticket)
      fun _ _ => True := does_spread hn rfl
  have hsettled : ∀ m, Settling .heartbeat (n.accepting j index ticket) m →
      m.SendsNobodyOn :=
    fun m hm => hm.course.sendsNobodyOn (fun _ _ h => by injection h) hnone
  refine Ensures.mono hspread (fun _ m hm => hsettled m hm.1) fun m hm => ?_
  obtain ⟨k, hk, hfails⟩ := hm
  exact hfails.sendsNobodyOn (hsettled k hk)

/-- Whoever is sent on by a node came with the event that the node handles, and the
node does not lead. -/
theorem follows_of_sentOn (hn : n.Saved) (hnew : n.effects = []) {ticket : ℕ}
    {hint : Option ℕ} (hin : .answer ticket (.refused (.notLeader hint)) ∈
      (outcome (Node.handle event) n).2.effects) :
    n.standing.role ≠ .leader ∧ ∃ payload, event = .command ticket payload := by
  have hnone : n.SendsNobodyOn := .of_new hnew
  have hquiet : ∀ {act : Act σ Unit}, Ensures act n (fun _ n' => n'.SendsNobodyOn)
      (fun n' => n'.SendsNobodyOn) →
        .answer ticket (.refused (.notLeader hint)) ∉ (outcome act n).2.effects := by
    intro act hact
    have hsilent : (outcome act n).2.SendsNobodyOn := by
      unfold outcome Ensures at *
      cases hrun : act n with
      | ok a n' =>
          rw [hrun] at hact
          exact hact
      | error e n' =>
          rw [hrun] at hact
          exact hact
    exact hsilent ticket hint
  by_cases hcommand : ∃ found payload, event = .command found payload
  · obtain ⟨found, payload, rfl⟩ := hcommand
    by_cases hrole : n.standing.role = .leader
    · exact absurd hin (hquiet (ensures_command_of_leader hn hnone hrole found payload))
    · refine ⟨hrole, payload, ?_⟩
      rw [outcome, handle_command_of_follower hrole] at hin
      rcases answer_mem_emit hin with hbefore | hnow
      · exact absurd hbefore (hnone ticket hint)
      · rw [(Effect.answer.inj hnow).1]
  · have hevent : ∀ found payload, event ≠ .command found payload :=
      fun found payload h => hcommand ⟨found, payload, h⟩
    refine absurd hin (hquiet ((handle_runs hn event).mono
      (fun _ n' hcourse => hcourse.sendsNobodyOn hevent hnone) fun n' hhalts => ?_))
    obtain ⟨m, hcourse, hfails⟩ := hhalts
    exact hfails.sendsNobodyOn (hcourse.sendsNobodyOn hevent hnone)

end Consensus.Node
