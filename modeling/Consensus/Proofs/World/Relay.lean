import Consensus.Cluster.Handle
import Consensus.Gateway
import Consensus.Node.Recovery
import Consensus.Proofs.Node.Fresh
import Consensus.Proofs.Node.Redirecting
import Mathlib.Logic.Function.Basic

/-!
# Submissions through a gateway

A gateway asks its own node first, and then one node after another by the hints it
gets.  Meanwhile the nodes do whatever they like: they start and stop, handle any
events in any order, and lead or not.  A request of the gateway arrives at the node
asked once at most, however late.  An attempt ends with the answer of that node, or
with no answer in time, or with an error of the transport in place of the answer.

A node is asked only after all those asked before have refused, and a node that
refuses has not appended anything and will not.  So the command is appended once at
most, whatever became of the attempts.
-/

namespace Consensus

open Gateway (Submission Move)

/-- A command that is submitted through a gateway. -/
structure Commission where
  /-- The node that the gateway belongs to. -/
  self : ℕ
  payload : Bytes
  maxRedirects : ℕ
  /-- The ticket of each attempt.  Nobody else has it. -/
  ticket : ℕ → ℕ
  distinct : Function.Injective ticket

/-- A node is asked for something. -/
structure Attempt where
  target : ℕ
  request : Request

namespace Relay

/-- How far a submission got. -/
inductive Stage where
  | idle
  /-- It waits for the node of the gateway. -/
  | locally (s : Submission)
  /-- It waits for a node that was asked over the network. -/
  | remotely (s : Submission)
  | ended (result : Except Error ℕ)

/-- The nodes, all that they ever told the outside, and the submission. -/
structure Scene (σ : Type) where
  /-- The nodes that run, by their ids. -/
  node : ℕ → Option (Node σ) := fun _ => none
  told : List (ℕ × Effect) := []
  /-- The attempts in the order they were made. -/
  attempts : List Attempt := []
  /-- The numbers of the attempts that arrived. -/
  arrived : List ℕ := []
  stage : Stage := .idle

/-- What happens in one step. -/
inductive Action where
  /-- A node handles an event that has nothing to do with the submission. -/
  | event (id : ℕ) (event : Event)
  /-- An attempt arrives at the node asked. -/
  | arrive (number : ℕ)
  | stop (id : ℕ)
  | crash (id : ℕ)
  | start (id : ℕ)
  /-- The command is handed to the gateway. -/
  | call
  /-- The gateway learns how its latest attempt ended. -/
  | hear
  /-- The gateway gets an error of the transport in place of an answer. -/
  | fail (e : Error)
  | idle

namespace Scene

variable {σ : Type}

/-- How the latest attempt may look to the one who waits for it: the node asked has
answered, or is lost, or takes too long. -/
inductive Ends (c : Commission) (w : Scene σ) : Option Answer → Prop
  | told {number : ℕ} {a : Attempt} {answer : Answer}
      (hlast : w.attempts.length = number + 1) (hattempt : w.attempts[number]? = some a)
      (htold : (a.target, .answer (c.ticket number) answer) ∈ w.told) :
      Ends c w (some answer)
  | lost : Ends c w CallKind.command.lost
  | late (leader : Option ℕ) : Ends c w (CallKind.command.late leader)

/-- The submission makes its next move. -/
def moved (w : Scene σ) : Move Submission (Except Error ℕ) → Scene σ
  | .finish result => { w with stage := .ended result }
  | .ask target request next =>
    { w with attempts := w.attempts ++ [⟨target, request⟩], stage := .remotely next }

/-- What the submission does. -/
inductive Moves (c : Commission) (w : Scene σ) : Action → Scene σ → Prop
  | called (hstage : w.stage = .idle) :
      Moves c w .call { w with
        attempts := w.attempts ++ [⟨c.self, .clientCommand c.payload⟩]
        stage := .locally ⟨c.self, c.payload, c.maxRedirects⟩ }
  | answeredLocally {s : Submission} {answer : Option Answer}
      (hstage : w.stage = .locally s) (hends : w.Ends c answer) :
      Moves c w .hear (w.moved (s.afterLocal (Answer.index? answer)))
  | answeredRemotely {s : Submission} {answer : Option Answer}
      (hstage : w.stage = .remotely s) (hends : w.Ends c answer) :
      Moves c w .hear (w.moved (s.afterReply (Answer.response? answer)))
  | failed {s : Submission} {e : Error} (hstage : w.stage = .remotely s) :
      Moves c w (.fail e) (w.moved (s.afterReply (.error e)))

variable [Storage σ]

/-- A node handles an event.  One that fails takes leave of those who wait. -/
def handled (w : Scene σ) (id : ℕ) (event : Event) (n : Node σ) : Scene σ :=
  match Node.handle event n with
  | .ok _ n' =>
    { w with
      node := Function.update w.node id (some { n' with effects := [] })
      told := w.told ++ n'.effects.map (id, ·) }
  | .error _ n' =>
    { w with
      node := Function.update w.node id none
      told := w.told ++ (n'.effects ++ ({ n' with effects := [] } : Node σ).stop.effects).map
        (id, ·) }

/-- What the nodes do. -/
inductive Works (c : Commission) (w : Scene σ) : Action → Scene σ → Prop
  | handled {id : ℕ} {event : Event} {n : Node σ} (hup : w.node id = some n)
      (hothers : ∀ number, event.ticket? ≠ some (c.ticket number)) :
      Works c w (.event id event) (w.handled id event n)
  | arrived {number : ℕ} {a : Attempt} {n : Node σ} {kind : CallKind} {event : Event}
      (hattempt : w.attempts[number]? = some a) (hnew : number ∉ w.arrived)
      (hup : w.node a.target = some n)
      (hevent : a.request.event? (c.ticket number) = some (kind, event)) :
      Works c w (.arrive number)
        ({ w with arrived := number :: w.arrived }.handled a.target event n)
  | stopped {id : ℕ} {n : Node σ} (hup : w.node id = some n) :
      Works c w (.stop id) { w with
        node := Function.update w.node id none
        told := w.told ++ n.stop.effects.map (id, ·) }
  | crashed (id : ℕ) :
      Works c w (.crash id) { w with node := Function.update w.node id none }
  | started {id : ℕ} {n : Node σ} (hdown : w.node id = none)
      (hrun : ∃ settings d d', Node.recover settings d = .ok n d') :
      Works c w (.start id) { w with node := Function.update w.node id (some n) }

/-- One step. -/
inductive Step (c : Commission) (w : Scene σ) : Action → Scene σ → Prop
  | works {action : Action} {w' : Scene σ} (h : w.Works c action w') : Step c w action w'
  | moves {action : Action} {w' : Scene σ} (h : w.Moves c action w') : Step c w action w'
  | idle : Step c w .idle w

end Scene

end Relay

/-- A submission through a gateway: all that happens before, meanwhile and after. -/
structure Relay (σ : Type) [Storage σ] where
  commission : Commission
  scene : ℕ → Relay.Scene σ
  action : ℕ → Relay.Action
  initial : scene 0 = {}
  step : ∀ k, (scene k).Step commission (action k) (scene (k + 1))

namespace Relay

variable {σ : Type}

/-! ## Answers and moves -/

/-- What a submission does about the end of its latest attempt: if the node refused,
it follows the hint, and otherwise it ends. -/
inductive Concludes (s : Submission) (answer : Option Answer) :
    Move Submission (Except Error ℕ) → Prop
  | follows {hint : Option ℕ} (hrefused : answer = some (.refused (.notLeader hint))) :
      Concludes s answer (s.follow hint)
  | finishes {result : Except Error ℕ}
      (hok : ∀ index, result = .ok index → answer = some (.applied index))
      (herror : ∀ hint, result ≠ .error (.notLeader hint)) :
      Concludes s answer (.finish result)

theorem concludes_error {s : Submission} {answer : Option Answer} {e : Error}
    (he : ∀ hint, e ≠ .notLeader hint) : Concludes s answer (.finish (.error e)) :=
  .finishes (fun _ h => by injection h) fun hint h => he hint (Except.error.inj h)

theorem concludes_afterLocal (s : Submission) (answer : Option Answer) :
    Concludes s answer (s.afterLocal (Answer.index? answer)) := by
  have hlost : Concludes s answer (.finish (.error .shutdown)) :=
    concludes_error fun _ h => by injection h
  cases answer with
  | none => exact hlost
  | some answer =>
      cases answer with
      | applied index =>
          refine .finishes (fun i h => ?_) fun _ h => by injection h
          rw [Except.ok.inj h]
      | refused e =>
          cases e with
          | notLeader hint => exact .follows rfl
          | _ => exact concludes_error fun _ h => by injection h
      | _ => exact hlost

theorem concludes_afterReply (s : Submission) (answer : Option Answer) :
    Concludes s answer (s.afterReply (Answer.response? answer)) := by
  cases answer with
  | none => exact concludes_error fun _ h => by injection h
  | some answer =>
      cases answer with
      | applied index =>
          refine .finishes (fun i h => ?_) fun _ h => by injection h
          rw [Except.ok.inj h]
      | refused e =>
          cases e with
          | notLeader hint => exact .follows rfl
          | _ => exact concludes_error fun _ h => by injection h
      | _ => exact concludes_error fun _ h => by injection h

/-- A submission either asks one more node for the command, or ends. -/
theorem follow_cases (s : Submission) (hint : Option ℕ) :
    s.follow hint = .finish (.error (.notLeader hint)) ∨
      ∃ target next, s.follow hint = .ask target (.clientCommand s.payload) next ∧
        next.payload = s.payload := by
  unfold Submission.follow
  split
  · split
    · exact Or.inl rfl
    · exact Or.inr ⟨_, _, rfl, rfl⟩
  · exact Or.inl rfl

/-! ## Moves of a submission -/

namespace Scene

variable {c : Commission} {w w' : Scene σ} {action : Action} {id : ℕ}

/-- Every node that is up has stored its term and vote, and its effects are told. -/
def Tidy (w : Scene σ) : Prop :=
  ∀ id n, w.node id = some n → n.Saved ∧ n.effects = []

/-- One node may be elsewhere, if it is tidy there. -/
theorem Tidy.put (h : w.Tidy) {place : Option (Node σ)}
    (hplace : ∀ n, place = some n → n.Saved ∧ n.effects = [])
    (hnode : w'.node = Function.update w.node id place) : w'.Tidy := by
  intro other n hn
  rw [hnode] at hn
  rcases eq_or_ne other id with rfl | hother
  · rw [Function.update_self] at hn
    exact hplace n hn
  · rw [Function.update_of_ne hother] at hn
    exact h other n hn

/-- The node asked has told the gateway that another node leads. -/
def Refused (c : Commission) (w : Scene σ) (number : ℕ) : Prop :=
  ∃ a hint, w.attempts[number]? = some a ∧
    (a.target, .answer (c.ticket number) (.refused (.notLeader hint))) ∈ w.told

/-- The node asked last has told the gateway that the command was applied. -/
def Applied (c : Commission) (w : Scene σ) (index : ℕ) : Prop :=
  ∃ number a, w.attempts.length = number + 1 ∧ w.attempts[number]? = some a ∧
    (a.target, .answer (c.ticket number) (.applied index)) ∈ w.told

theorem Refused.mono {number : ℕ} (h : w.Refused c number)
    (hattempts : w.attempts <+: w'.attempts) (htold : w.told ⊆ w'.told) :
    w'.Refused c number := by
  obtain ⟨a, hint, hattempt, hin⟩ := h
  obtain ⟨hlt, ha⟩ := List.getElem?_eq_some_iff.mp hattempt
  refine ⟨a, hint, ?_, htold hin⟩
  rw [List.prefix_iff_getElem?.mp hattempts number hlt, ha]

/-- A gateway hears of a refusal only from the node. -/
theorem Ends.refused {hint : Option ℕ}
    (h : w.Ends c (some (.refused (.notLeader hint)))) :
    ∃ number, w.attempts.length = number + 1 ∧ w.Refused c number := by
  cases h with
  | told hlast hattempt htold => exact ⟨_, hlast, _, hint, hattempt, htold⟩

/-- A gateway hears that its command was applied only from the node. -/
theorem Ends.applied {index : ℕ} (h : w.Ends c (some (.applied index))) :
    w.Applied c index := by
  cases h with
  | told hlast hattempt htold => exact ⟨_, _, hlast, hattempt, htold⟩

/-- What one move comes to. -/
inductive Turn (c : Commission) (w : Scene σ) (action : Action) : Scene σ → Prop
  | begins {s : Submission} (hidle : w.stage = .idle) (hpayload : s.payload = c.payload) :
      Turn c w action { w with
        attempts := w.attempts ++ [⟨c.self, .clientCommand c.payload⟩]
        stage := .locally s }
  /-- The node asked last has refused, so another one is asked. -/
  | asks {number target : ℕ} {s : Submission} (hlast : w.attempts.length = number + 1)
      (hrefused : w.Refused c number) (hpayload : s.payload = c.payload) :
      Turn c w action { w with
        attempts := w.attempts ++ [⟨target, .clientCommand c.payload⟩]
        stage := .remotely s }
  | ends {result : Except Error ℕ}
      (hok : ∀ index, result = .ok index → w.Applied c index)
      (hrefused : ∀ hint, result = .error (.notLeader hint) →
        (∃ number, w.attempts.length = number + 1 ∧ w.Refused c number) ∨
          action = .fail (.notLeader hint)) :
      Turn c w action { w with stage := .ended result }

theorem turn_of_concludes {s : Submission} {answer : Option Answer}
    {move : Move Submission (Except Error ℕ)} (h : Concludes s answer move)
    (hends : w.Ends c answer) (hpayload : s.payload = c.payload) :
    w.Turn c action (w.moved move) := by
  cases h with
  | @follows hint hrefused =>
      subst hrefused
      obtain ⟨number, hlast, hrefused⟩ := hends.refused
      rcases follow_cases s hint with hfinish | ⟨target, next, hask, hnext⟩
      · rw [hfinish]
        exact .ends (fun _ h => by injection h) fun _ _ => Or.inl ⟨number, hlast, hrefused⟩
      · rw [hask, hpayload]
        exact .asks hlast hrefused (hnext.trans hpayload)
  | finishes hok herror =>
      refine .ends (fun index hresult => ?_) fun hint hresult => absurd hresult (herror hint)
      rw [hok index hresult] at hends
      exact hends.applied

theorem Moves.turn (h : w.Moves c action w')
    (hcarries : ∀ s, w.stage = .locally s ∨ w.stage = .remotely s →
      s.payload = c.payload) : w.Turn c action w' := by
  cases h with
  | called hstage => exact .begins hstage rfl
  | @answeredLocally s answer hstage hends =>
      exact turn_of_concludes (concludes_afterLocal s answer) hends
        (hcarries s (Or.inl hstage))
  | @answeredRemotely s answer hstage hends =>
      exact turn_of_concludes (concludes_afterReply s answer) hends
        (hcarries s (Or.inr hstage))
  | @failed s e hstage =>
      refine .ends (fun _ h => by injection h) fun hint hresult => Or.inr ?_
      rw [Except.error.inj hresult]

theorem Turn.grows (h : w.Turn c action w') :
    w.attempts <+: w'.attempts ∧ w'.told = w.told ∧ w'.arrived = w.arrived := by
  cases h with
  | begins => exact ⟨List.prefix_append _ _, rfl, rfl⟩
  | asks => exact ⟨List.prefix_append _ _, rfl, rfl⟩
  | ends => exact ⟨List.prefix_refl _, rfl, rfl⟩

/-- A submission that ended makes no more moves. -/
theorem Moves.not_ended (h : w.Moves c action w') (result : Except Error ℕ) :
    w.stage ≠ .ended result := by
  intro hended
  cases h with
  | called hstage => exact Stage.noConfusion (hstage.symm.trans hended)
  | answeredLocally hstage => exact Stage.noConfusion (hstage.symm.trans hended)
  | answeredRemotely hstage => exact Stage.noConfusion (hstage.symm.trans hended)
  | failed hstage => exact Stage.noConfusion (hstage.symm.trans hended)

/-! ## Submissions in order -/

/-- A submission is where it should be.  Errors of the transport that name a leader are
on the list of those to blame. -/
structure Orderly (c : Commission) (blamed : Option ℕ → Prop) (w : Scene σ) : Prop where
  tidy : w.Tidy
  requests : ∀ a ∈ w.attempts, a.request = .clientCommand c.payload
  idle : w.stage = .idle → w.attempts = []
  carries : ∀ s, w.stage = .locally s ∨ w.stage = .remotely s → s.payload = c.payload
  refused : ∀ number, number + 1 < w.attempts.length → w.Refused c number
  applied : ∀ index, w.stage = .ended (.ok index) → w.Applied c index
  allRefused : ∀ hint, w.stage = .ended (.error (.notLeader hint)) →
    (∀ number < w.attempts.length, w.Refused c number) ∨ blamed hint

variable {blamed : Option ℕ → Prop}

theorem orderly_empty : Orderly c blamed ({} : Scene σ) where
  tidy := fun _ _ h => by injection h
  requests := fun _ h => absurd h List.not_mem_nil
  idle := fun _ => rfl
  carries := by
    rintro s (h | h) <;> injection h
  refused := fun _ h => absurd h (Nat.not_lt_zero _)
  applied := fun _ h => by injection h
  allRefused := fun _ h => by injection h

theorem Orderly.mono {blamed' : Option ℕ → Prop} (h : w.Orderly c blamed)
    (hblamed : ∀ hint, blamed hint → blamed' hint) : w.Orderly c blamed' :=
  { h with allRefused := fun hint hended => (h.allRefused hint hended).imp_right (hblamed hint) }

/-- A move asks another node only after a refusal, and ends well only after a success. -/
theorem Orderly.turn (h : w.Orderly c blamed) (hturn : w.Turn c action w') :
    w'.Orderly c fun hint => blamed hint ∨ action = .fail (.notLeader hint) := by
  have hrequests : ∀ target, ∀ a ∈ w.attempts ++ [⟨target, .clientCommand c.payload⟩],
      a.request = .clientCommand c.payload := by
    intro target a ha
    rcases List.mem_append.mp ha with hbefore | hlast
    · exact h.requests a hbefore
    · rw [List.mem_singleton.mp hlast]
  -- with the latest attempt refused, every attempt is
  have hall : ∀ number, w.attempts.length = number + 1 → w.Refused c number →
      ∀ i < w.attempts.length, w.Refused c i := by
    intro number hlast hrefused i hi
    rcases Nat.lt_succ_iff_lt_or_eq.mp (hlast ▸ hi) with hlt | rfl
    · exact h.refused i (by omega)
    · exact hrefused
  cases hturn with
  | @begins s hidle hpayload =>
      refine ⟨h.tidy, hrequests _, (fun hstage => by injection hstage), ?_, ?_,
        (fun _ hstage => by injection hstage), fun _ hstage => by injection hstage⟩
      · rintro found (hstage | hstage)
        · rw [← Stage.locally.inj hstage]
          exact hpayload
        · injection hstage
      · intro number hlt
        rw [h.idle hidle, List.nil_append, List.length_singleton] at hlt
        omega
  | @asks number target s hlast hrefused hpayload =>
      refine ⟨h.tidy, hrequests _, (fun hstage => by injection hstage), ?_, ?_,
        (fun _ hstage => by injection hstage), fun _ hstage => by injection hstage⟩
      · rintro found (hstage | hstage)
        · injection hstage
        · rw [← Stage.remotely.inj hstage]
          exact hpayload
      · intro i hlt
        rw [List.length_append, List.length_singleton] at hlt
        exact (hall number hlast hrefused i (by omega)).mono (List.prefix_append _ _)
          (List.Subset.refl _)
  | @ends result hok hrefused =>
      refine ⟨h.tidy, h.requests, (fun hstage => by injection hstage), ?_, h.refused, ?_, ?_⟩
      · rintro found (hstage | hstage) <;> injection hstage
      · exact fun index hstage => hok index (Stage.ended.inj hstage)
      · intro hint hstage
        rcases hrefused hint (Stage.ended.inj hstage) with ⟨number, hlast, hnumber⟩ | hfail
        · exact Or.inl (hall number hlast hnumber)
        · exact Or.inr (Or.inr hfail)

/-! ## What nodes do -/

variable [Storage σ]

/-- What nodes do leaves the submission where it is. -/
theorem handled_keeps (w : Scene σ) (id : ℕ) (event : Event) (n : Node σ) :
    (w.handled id event n).attempts = w.attempts ∧
      (w.handled id event n).arrived = w.arrived ∧
      (w.handled id event n).stage = w.stage ∧ w.told ⊆ (w.handled id event n).told := by
  unfold handled
  split
  · exact ⟨rfl, rfl, rfl, fun _ h => List.mem_append_left _ h⟩
  · exact ⟨rfl, rfl, rfl, fun _ h => List.mem_append_left _ h⟩

/-- A node handles an event that does not fail. -/
def passed (w : Scene σ) (id : ℕ) (event : Event) (n : Node σ) : Scene σ :=
  { w with
    node := Function.update w.node id
      (some { (outcome (Node.handle event) n).2 with effects := [] })
    told := w.told ++ (outcome (Node.handle event) n).2.effects.map (id, ·) }

theorem handled_of_ok {w : Scene σ} {event : Event} {n : Node σ}
    (h : (outcome (Node.handle event) n).1 = .ok ()) :
    w.handled id event n = w.passed id event n := by
  unfold handled
  rw [eq_ok_of_outcome h]
  rfl

theorem Tidy.handled (h : w.Tidy) {n : Node σ} (hn : n.Saved) (event : Event) :
    (w.handled id event n).Tidy := by
  unfold Scene.handled
  split
  · next n' hrun =>
    refine h.put (fun m hm => ?_) rfl
    obtain rfl := Option.some.inj hm
    exact ⟨((Node.handle_runs hn event).ok hrun).saved hn, rfl⟩
  · exact h.put (fun _ hm => by injection hm) rfl

/-- Whoever is sent on at an event is the caller that came with it, and the node does
not lead. -/
theorem follows_of_handled {event : Event} {n : Node σ} (hn : n.Saved)
    (hnew : n.effects = []) {found ticket : ℕ} {hint : Option ℕ}
    (htold : (found, .answer ticket (.refused (.notLeader hint))) ∈
      (w.handled id event n).told) :
    (found, .answer ticket (.refused (.notLeader hint))) ∈ w.told ∨
      n.standing.role ≠ .leader ∧ ∃ payload, event = .command ticket payload := by
  have hfollows : ∀ {n' : Node σ}, (outcome (Node.handle event) n).2 = n' →
      .answer ticket (.refused (.notLeader hint)) ∈ n'.effects →
        n.standing.role ≠ .leader ∧ ∃ payload, event = .command ticket payload := by
    rintro n' rfl hin
    exact Node.follows_of_sentOn hn hnew hin
  unfold handled at htold
  split at htold
  · next n' hrun =>
    rcases List.mem_append.mp htold with hbefore | hafter
    · exact Or.inl hbefore
    · obtain ⟨e, he, heq⟩ := List.mem_map.mp hafter
      obtain ⟨rfl, rfl⟩ := Prod.mk.inj heq
      exact Or.inr (hfollows (by rw [outcome, hrun]) he)
  · next n' hrun =>
    rcases List.mem_append.mp htold with hbefore | hafter
    · exact Or.inl hbefore
    · obtain ⟨e, he, heq⟩ := List.mem_map.mp hafter
      obtain ⟨rfl, rfl⟩ := Prod.mk.inj heq
      rcases List.mem_append.mp he with hin | hfarewell
      · exact Or.inr (hfollows (by rw [outcome, hrun]) hin)
      · have hnobody : ({ n' with effects := [] } : Node σ).stop.SendsNobodyOn :=
          (Node.SendsNobodyOn.of_new rfl).stop
        exact absurd hfarewell (hnobody ticket hint)

/-- What nodes do leaves the submission where it is, and nothing is untold. -/
theorem Works.keeps (h : w.Works c action w') :
    w'.attempts = w.attempts ∧ w'.stage = w.stage ∧ w.told ⊆ w'.told ∧
      w.arrived ⊆ w'.arrived := by
  cases h with
  | @handled id event n hup hothers =>
      obtain ⟨hattempts, harrived, hstage, htold⟩ := handled_keeps w id event n
      exact ⟨hattempts, hstage, htold, harrived.symm ▸ List.Subset.refl _⟩
  | @arrived number a n kind event hattempt hnew hup hevent =>
      obtain ⟨hattempts, harrived, hstage, htold⟩ :=
        handled_keeps { w with arrived := number :: w.arrived } a.target event n
      exact ⟨hattempts, hstage, htold,
        harrived.symm ▸ List.subset_cons_self number w.arrived⟩
  | stopped => exact ⟨rfl, rfl, List.subset_append_left _ _, List.Subset.refl _⟩
  | crashed => exact ⟨rfl, rfl, List.Subset.refl _, List.Subset.refl _⟩
  | started => exact ⟨rfl, rfl, List.Subset.refl _, List.Subset.refl _⟩

theorem Works.tidy (h : w.Works c action w') (htidy : w.Tidy) : w'.Tidy := by
  cases h with
  | handled hup hothers => exact htidy.handled (htidy _ _ hup).1 _
  | @arrived number a n kind event hattempt hnew hup hevent =>
      have harrived : ({ w with arrived := number :: w.arrived } : Scene σ).Tidy := htidy
      exact harrived.handled (htidy _ _ hup).1 _
  | stopped => exact htidy.put (fun _ hm => by injection hm) rfl
  | crashed => exact htidy.put (fun _ hm => by injection hm) rfl
  | started hdown hrun =>
      refine htidy.put (fun n hn => ?_) rfl
      obtain rfl := Option.some.inj hn
      obtain ⟨settings, d, d', hrun⟩ := hrun
      have hnew := (Node.ensures_recover_isNew settings d).ok hrun
      exact ⟨hnew.saved, hnew.effects⟩

/-- Whoever is sent on in a step and has the ticket of an attempt made that attempt,
which arrives in this step at a node that does not lead. -/
theorem Works.arrives_of_sentOn (h : w.Works c action w') (htidy : w.Tidy)
    (hrequests : ∀ a ∈ w.attempts, a.request = .clientCommand c.payload) {found number : ℕ}
    {hint : Option ℕ}
    (htold : (found, .answer (c.ticket number) (.refused (.notLeader hint))) ∈ w'.told) :
    (found, .answer (c.ticket number) (.refused (.notLeader hint))) ∈ w.told ∨
      action = .arrive number ∧ ∃ a n, w.attempts[number]? = some a ∧
        w.node a.target = some n ∧ n.standing.role ≠ .leader := by
  cases h with
  | @handled id event n hup hothers =>
      obtain ⟨hsaved, hnew⟩ := htidy id n hup
      rcases follows_of_handled hsaved hnew htold with hbefore | ⟨-, payload, rfl⟩
      · exact Or.inl hbefore
      · exact absurd rfl (hothers number)
  | @arrived i a n kind event hattempt hnew hup hevent =>
      obtain ⟨hsaved, hempty⟩ := htidy _ n hup
      rcases follows_of_handled hsaved hempty htold with hbefore | ⟨hrole, payload, rfl⟩
      · exact Or.inl hbefore
      · rw [hrequests a (List.mem_of_getElem? hattempt)] at hevent
        obtain ⟨-, hcommand⟩ := Prod.mk.inj (Option.some.inj hevent)
        obtain ⟨hticket, -⟩ := Event.command.inj hcommand
        obtain rfl := c.distinct hticket
        exact Or.inr ⟨rfl, a, n, hattempt, hup, hrole⟩
  | @stopped id n hup =>
      rcases List.mem_append.mp htold with hbefore | hafter
      · exact Or.inl hbefore
      · obtain ⟨e, he, heq⟩ := List.mem_map.mp hafter
        obtain ⟨rfl, rfl⟩ := Prod.mk.inj heq
        have hnobody : n.stop.SendsNobodyOn :=
          (Node.SendsNobodyOn.of_new (htidy id n hup).2).stop
        exact absurd he (hnobody _ hint)
  | crashed => exact Or.inl htold
  | started => exact Or.inl htold

/-- What the nodes do does not disturb the submission. -/
theorem Orderly.works (h : w.Orderly c blamed) (hworks : w.Works c action w') :
    w'.Orderly c blamed := by
  obtain ⟨hattempts, hstage, htold, -⟩ := hworks.keeps
  have hrefused : ∀ {number}, w.Refused c number → w'.Refused c number :=
    fun hnumber => hnumber.mono (hattempts ▸ List.prefix_refl _) htold
  constructor
  · exact hworks.tidy h.tidy
  · rw [hattempts]
    exact h.requests
  · rw [hattempts, hstage]
    exact h.idle
  · rw [hstage]
    exact h.carries
  · rw [hattempts]
    exact fun number hlt => hrefused (h.refused number hlt)
  · rw [hstage]
    intro index hended
    obtain ⟨number, a, hlast, hattempt, hin⟩ := h.applied index hended
    exact ⟨number, a, hattempts ▸ hlast, hattempts ▸ hattempt, htold hin⟩
  · rw [hattempts, hstage]
    exact fun hint hended =>
      (h.allRefused hint hended).imp_left fun hall number hlt => hrefused (hall number hlt)

end Scene

/-! ## The whole of a submission -/

variable [Storage σ] (r : Relay σ)

/-- An attempt arrives at a node. -/
def Arrives (k number : ℕ) (n : Node σ) : Prop :=
  r.action k = .arrive number ∧
    ∃ a, (r.scene k).attempts[number]? = some a ∧ (r.scene k).node a.target = some n

/-- A node appends the command as a leader, on behalf of an attempt. -/
def Appends (k number : ℕ) : Prop :=
  ∃ n, r.Arrives k number n ∧ n.standing.role = .leader ∧
    ∃ index j, Journal.append n.standing.currentTerm (.command r.commission.payload)
      n.toJournal = .ok index j

/-- The node that is asked by an attempt has refused by then. -/
def Refused (k number : ℕ) : Prop := (r.scene k).Refused r.commission number

/-- By then the transport has said in place of a node that the node does not lead. -/
def Blames (k : ℕ) (hint : Option ℕ) : Prop := ∃ j < k, r.action j = .fail (.notLeader hint)

variable {r} {k number : ℕ}

theorem orderly (r : Relay σ) (k : ℕ) : (r.scene k).Orderly r.commission (r.Blames k) := by
  induction k with
  | zero =>
      rw [r.initial]
      exact Scene.orderly_empty
  | succ k ih =>
      have hblames : ∀ hint, r.Blames k hint → r.Blames (k + 1) hint := by
        rintro hint ⟨j, hj, hfail⟩
        exact ⟨j, Nat.lt_succ_of_lt hj, hfail⟩
      have hstep := r.step k
      generalize haction : r.action k = action at hstep
      generalize r.scene (k + 1) = w at hstep ⊢
      cases hstep with
      | works hworks => exact (ih.works hworks).mono hblames
      | moves hmoves =>
          refine (ih.turn (hmoves.turn ih.carries)).mono fun hint hblamed => ?_
          rcases hblamed with hbefore | hfail
          · exact hblames hint hbefore
          · exact ⟨k, Nat.lt_succ_self k, haction.trans hfail⟩
      | idle => exact ih.mono hblames

/-- Nothing that was done is undone in a step. -/
theorem grows (r : Relay σ) (k : ℕ) :
    (r.scene k).attempts <+: (r.scene (k + 1)).attempts ∧
      (r.scene k).told ⊆ (r.scene (k + 1)).told ∧
      (r.scene k).arrived ⊆ (r.scene (k + 1)).arrived := by
  have hstep := r.step k
  generalize r.action k = action at hstep
  generalize r.scene (k + 1) = w at hstep ⊢
  cases hstep with
  | works hworks =>
      obtain ⟨hattempts, -, htold, harrived⟩ := hworks.keeps
      exact ⟨hattempts ▸ List.prefix_refl _, htold, harrived⟩
  | moves hmoves =>
      obtain ⟨hattempts, htold, harrived⟩ := (hmoves.turn (r.orderly k).carries).grows
      exact ⟨hattempts, htold ▸ List.Subset.refl _, harrived ▸ List.Subset.refl _⟩
  | idle => exact ⟨List.prefix_refl _, List.Subset.refl _, List.Subset.refl _⟩

theorem attempts_isPrefix (r : Relay σ) {j k : ℕ} (hle : j ≤ k) :
    (r.scene j).attempts <+: (r.scene k).attempts := by
  induction hle with
  | refl => exact List.prefix_refl _
  | step _ ih => exact ih.trans (r.grows _).1

theorem arrived_subset (r : Relay σ) {j k : ℕ} (hle : j ≤ k) :
    (r.scene j).arrived ⊆ (r.scene k).arrived := by
  induction hle with
  | refl => exact List.Subset.refl _
  | step _ ih => exact List.Subset.trans ih (r.grows _).2.2

/-- A submission that ended asks nobody else. -/
theorem attempts_eq_of_ended {result : Except Error ℕ}
    (h : (r.scene k).stage = .ended result) {m : ℕ} (hle : k ≤ m) :
    (r.scene m).stage = .ended result ∧ (r.scene m).attempts = (r.scene k).attempts := by
  induction hle with
  | refl => exact ⟨h, rfl⟩
  | @step m _ ih =>
      obtain ⟨hstage, hattempts⟩ := ih
      have hstep := r.step m
      generalize r.action m = action at hstep
      generalize r.scene (m + 1) = w at hstep ⊢
      cases hstep with
      | works hworks =>
          obtain ⟨hattempts', hstage', -, -⟩ := hworks.keeps
          exact ⟨hstage'.trans hstage, hattempts'.trans hattempts⟩
      | moves hmoves => exact absurd hstage (hmoves.not_ended result)
      | idle => exact ⟨hstage, hattempts⟩

/-! ## Arrivals -/

/-- An attempt that arrives had not arrived before. -/
theorem arrived_of_arrive (h : r.action k = .arrive number) :
    number ∉ (r.scene k).arrived ∧ number ∈ (r.scene (k + 1)).arrived := by
  have hstep := r.step k
  rw [h] at hstep
  generalize r.scene (k + 1) = w at hstep ⊢
  cases hstep with
  | works hworks =>
      cases hworks with
      | @arrived _ a n _ event hattempt hnew hup hevent =>
          refine ⟨hnew, ?_⟩
          rw [(Scene.handled_keeps { r.scene k with arrived := number :: (r.scene k).arrived }
            a.target event n).2.1]
          exact List.mem_cons_self
  | moves hmoves => cases hmoves

/-- An attempt arrives once. -/
theorem arrives_once {j : ℕ} (h : r.action j = .arrive number)
    (h' : r.action k = .arrive number) : j = k := by
  have hlater : ∀ {j k : ℕ}, r.action j = .arrive number →
      r.action k = .arrive number → ¬ j < k := by
    intro j k hj hk hlt
    exact (arrived_of_arrive hk).1 (r.arrived_subset hlt (arrived_of_arrive hj).2)
  exact le_antisymm (not_lt.mp (hlater h' h)) (not_lt.mp (hlater h h'))

/-- Whoever is sent on has arrived at a node that did not lead. -/
theorem exists_arrival_of_sentOn (r : Relay σ) {found : ℕ} {hint : Option ℕ}
    (htold : (found, .answer (r.commission.ticket number) (.refused (.notLeader hint))) ∈
      (r.scene k).told) : ∃ j n, r.Arrives j number n ∧ n.standing.role ≠ .leader := by
  induction k with
  | zero =>
      rw [r.initial] at htold
      exact absurd htold List.not_mem_nil
  | succ k ih =>
      have horderly := r.orderly k
      have hstep := r.step k
      generalize haction : r.action k = action at hstep
      generalize r.scene (k + 1) = w at hstep htold
      cases hstep with
      | works hworks =>
          rcases hworks.arrives_of_sentOn horderly.tidy horderly.requests htold with
            hbefore | ⟨rfl, a, n, hattempt, hup, hrole⟩
          · exact ih hbefore
          · exact ⟨k, n, ⟨haction, a, hattempt, hup⟩, hrole⟩
      | moves hmoves =>
          rw [(hmoves.turn horderly.carries).grows.2.1] at htold
          exact ih htold
      | idle => exact ih htold

/-- An attempt that was refused is not appended, neither before nor after. -/
theorem Refused.not_appends (h : r.Refused k number) (j : ℕ) : ¬ r.Appends j number := by
  rintro ⟨n, ⟨haction, a, hattempt, hup⟩, hleads, -⟩
  obtain ⟨b, hint, -, htold⟩ := h
  obtain ⟨i, m, ⟨haction', a', hattempt', hup'⟩, hrole⟩ :=
    r.exists_arrival_of_sentOn htold
  obtain rfl := arrives_once haction haction'
  obtain rfl := Option.some.inj (hattempt.symm.trans hattempt')
  obtain rfl := Option.some.inj (hup.symm.trans hup')
  exact hrole hleads

/-- The attempt that is appended has been made. -/
theorem Appends.lt_length (h : r.Appends k number) :
    number < (r.scene k).attempts.length := by
  obtain ⟨n, ⟨-, a, hattempt, -⟩, -⟩ := h
  exact (List.getElem?_eq_some_iff.mp hattempt).1

theorem Appends.not_later {j i : ℕ} (h : r.Appends j i) (h' : r.Appends k number) :
    ¬ i < number := by
  intro hlt
  have hrefused : r.Refused k i := (r.orderly k).refused i (by have := h'.lt_length; omega)
  exact hrefused.not_appends j h

/-- Another node is asked only when all those asked before have refused, one attempt at
most is ever appended, the submission succeeds only if the node asked last has said so,
and if no node is found that leads then none has appended the command or will, unless
it was the transport that said so in place of the node. -/
theorem submits_once (r : Relay σ) :
    (∀ k number, number + 1 < (r.scene k).attempts.length → r.Refused k number) ∧
      (∀ j i k number, r.Appends j i → r.Appends k number → j = k ∧ i = number) ∧
      (∀ k index, (r.scene k).stage = .ended (.ok index) →
        (r.scene k).Applied r.commission index) ∧
      ∀ k hint, (r.scene k).stage = .ended (.error (.notLeader hint)) →
        ¬ r.Blames k hint → ∀ j number, ¬ r.Appends j number := by
  refine ⟨fun k => (r.orderly k).refused, ?_, fun k => (r.orderly k).applied, ?_⟩
  · intro j i k number h h'
    obtain rfl : i = number :=
      le_antisymm (not_lt.mp (h'.not_later h)) (not_lt.mp (h.not_later h'))
    obtain ⟨-, ⟨haction, -⟩, -⟩ := h
    obtain ⟨-, ⟨haction', -⟩, -⟩ := h'
    exact ⟨arrives_once haction haction', rfl⟩
  · intro k hint hended hblames j number happends
    have hall := ((r.orderly k).allRefused hint hended).resolve_right hblames
    have hlt : number < (r.scene k).attempts.length := by
      rcases le_total j k with hle | hle
      · exact happends.lt_length.trans_le (r.attempts_isPrefix hle).length_le
      · rw [← (attempts_eq_of_ended hended hle).2]
        exact happends.lt_length
    have hrefused : r.Refused k number := hall number hlt
    exact hrefused.not_appends j happends

/-! ## A submission that is sent on -/

/-- The gateway has the tickets `0, 2, ..` and belongs to the second node. -/
def errand : Commission where
  self := 2
  payload := [120]
  maxRedirects := 3
  ticket number := 2 * number
  distinct _ _ h := Nat.eq_of_mul_eq_mul_left two_pos h

/-- The first node stands for election, and is given the command. -/
def leadingEvent : ℕ → Event
  | 0 => .campaign
  | _ => .command 2 [120]

/-- The second node hears that the first one leads, and is given the command. -/
def followingEvent : ℕ → Event
  | 0 => .appendRequest 1 ⟨1, 1, 0, 0, [], 0⟩
  | _ => .command 0 [120]

/-- The first node before each of its events. -/
def leading : ℕ → Node Memory := (Node.fresh {} ⟨{}, {}⟩).along leadingEvent

/-- The second node before each of its events. -/
def following : ℕ → Node Memory :=
  (Node.fresh { nodeId := 2, members := [] } ⟨{}, {}⟩).along followingEvent

/-- The second node sends the caller on to the first one, which applies the command. -/
def errandAction : ℕ → Action
  | 0 => .start 1
  | 1 => .start 2
  | 2 => .event 1 (leadingEvent 0)
  | 3 => .event 2 (followingEvent 0)
  | 4 => .call
  | 5 => .arrive 0
  | 6 => .hear
  | 7 => .arrive 1
  | 8 => .hear
  | _ => .idle

/-- What comes of each action. -/
def errandNext : ℕ → Scene Memory → Scene Memory
  | 0, w => { w with node := Function.update w.node 1 (some (leading 0)) }
  | 1, w => { w with node := Function.update w.node 2 (some (following 0)) }
  | 2, w => w.passed 1 (leadingEvent 0) (leading 0)
  | 3, w => w.passed 2 (followingEvent 0) (following 0)
  | 4, w => { w with
      attempts := w.attempts ++ [⟨2, .clientCommand [120]⟩]
      stage := .locally ⟨2, [120], 3⟩ }
  | 5, w => { w with arrived := 0 :: w.arrived }.passed 2 (followingEvent 1) (following 1)
  | 6, w => w.moved (Submission.afterLocal ⟨2, [120], 3⟩
      (Answer.index? (some (.refused (.notLeader (some 1))))))
  | 7, w => { w with arrived := 1 :: w.arrived }.passed 1 (leadingEvent 1) (leading 1)
  | 8, w => w.moved (Submission.afterReply ⟨2, [120], 2⟩
      (Answer.response? (some (.applied 2))))
  | _, w => w

/-- The nodes and the submission before each action. -/
def errandScene : ℕ → Scene Memory
  | 0 => {}
  | k + 1 => errandNext k (errandScene k)

theorem goesOn_leading (k : ℕ) (hlt : k < 2) :
    (outcome (Node.handle (leadingEvent k)) (leading k)).1 = .ok () := by
  obtain rfl | rfl : k = 0 ∨ k = 1 := by omega
  · decide +kernel
  · decide +kernel

theorem goesOn_following (k : ℕ) (hlt : k < 2) :
    (outcome (Node.handle (followingEvent k)) (following k)).1 = .ok () := by
  obtain rfl | rfl : k = 0 ∨ k = 1 := by omega
  · decide +kernel
  · decide +kernel

theorem refuses_following : .answer 0 (.refused (.notLeader (some 1))) ∈
    (outcome (Node.handle (followingEvent 1)) (following 1)).2.effects := by
  decide +kernel

theorem applies_leading : .answer 2 (.applied 2) ∈
    (outcome (Node.handle (leadingEvent 1)) (leading 1)).2.effects := by
  decide +kernel

theorem appends_leading : (leading 1).standing.role = .leader ∧
    ∃ index j, Journal.append (leading 1).standing.currentTerm (.command [120])
      (leading 1).toJournal = .ok index j := by
  have hrun : (outcome (Journal.append (leading 1).standing.currentTerm
      (.command [120])) (leading 1).toJournal).1 = .ok 2 := by decide +kernel
  exact ⟨by decide +kernel, 2, _, eq_ok_of_outcome hrun⟩

theorem works_errandScene : ∀ k ∈ [0, 1, 2, 3, 5, 7],
    (errandScene k).Works errand (errandAction k) (errandScene (k + 1)) := by
  intro k hk
  simp only [List.mem_cons, List.not_mem_nil, or_false] at hk
  rcases hk with rfl | rfl | rfl | rfl | rfl | rfl
  · exact .started rfl ⟨{}, ⟨{}, {}⟩, _, rfl⟩
  · exact .started rfl ⟨{ nodeId := 2, members := [] }, ⟨{}, {}⟩, _, rfl⟩
  · have hstep : (errandScene 2).Works errand (.event 1 (leadingEvent 0))
        ((errandScene 2).handled 1 (leadingEvent 0) (leading 0)) :=
      .handled rfl fun _ h => by injection h
    rwa [Scene.handled_of_ok (goesOn_leading 0 two_pos)] at hstep
  · have hstep : (errandScene 3).Works errand (.event 2 (followingEvent 0))
        ((errandScene 3).handled 2 (followingEvent 0) (following 0)) := by
      refine .handled rfl fun number h => ?_
      have hodd : 1 = 2 * number := Option.some.inj h
      omega
    rwa [Scene.handled_of_ok (goesOn_following 0 two_pos)] at hstep
  · have hnew : 0 ∉ (errandScene 5).arrived := by decide
    have hstep : (errandScene 5).Works errand (.arrive 0)
        ({ errandScene 5 with arrived := [0] }.handled 2 (followingEvent 1) (following 1)) :=
      .arrived rfl hnew rfl rfl
    rwa [Scene.handled_of_ok (goesOn_following 1 one_lt_two)] at hstep
  · have hnew : 1 ∉ (errandScene 7).arrived := by decide
    have hstep : (errandScene 7).Works errand (.arrive 1)
        ({ errandScene 7 with arrived := [1, 0] }.handled 1 (leadingEvent 1) (leading 1)) :=
      .arrived rfl hnew rfl rfl
    rwa [Scene.handled_of_ok (goesOn_leading 1 one_lt_two)] at hstep

theorem moves_errandScene : ∀ k ∈ [4, 6, 8],
    (errandScene k).Moves errand (errandAction k) (errandScene (k + 1)) := by
  intro k hk
  simp only [List.mem_cons, List.not_mem_nil, or_false] at hk
  rcases hk with rfl | rfl | rfl
  · exact .called rfl
  · have hends : (errandScene 6).Ends errand (some (.refused (.notLeader (some 1)))) :=
      .told rfl rfl (List.mem_append_right _ (List.mem_map_of_mem refuses_following))
    exact .answeredLocally rfl hends
  · have hends : (errandScene 8).Ends errand (some (.applied 2)) :=
      .told rfl rfl (List.mem_append_right _ (List.mem_map_of_mem applies_leading))
    exact .answeredRemotely rfl hends

theorem step_errandScene (k : ℕ) :
    (errandScene k).Step errand (errandAction k) (errandScene (k + 1)) := by
  rcases Nat.lt_or_ge k 9 with hlt | hge
  · have hk : k ∈ [0, 1, 2, 3, 5, 7] ∨ k ∈ [4, 6, 8] := by
      simp only [List.mem_cons, List.not_mem_nil, or_false]
      omega
    rcases hk with hworks | hmoves
    · exact .works (works_errandScene k hworks)
    · exact .moves (moves_errandScene k hmoves)
  · obtain ⟨m, rfl⟩ := Nat.exists_eq_add_of_le' hge
    exact .idle

/-- The command is handed in at the second node, and applied by the first one. -/
def sentOn : Relay Memory where
  commission := errand
  scene := errandScene
  action := errandAction
  initial := rfl
  step := step_errandScene

/-- The first attempt was refused, and the second one was appended by a leader, alone
of all. -/
theorem sentOn_submits_once :
    sentOn.Refused 9 0 ∧ sentOn.Appends 7 1 ∧
      (∀ k number, sentOn.Appends k number → k = 7 ∧ number = 1) ∧
      (sentOn.scene 9).stage = .ended (.ok 2) ∧
      (sentOn.scene 9).Applied sentOn.commission 2 := by
  obtain ⟨hrefused, honce, happlied, -⟩ := submits_once sentOn
  have happends : sentOn.Appends 7 1 :=
    ⟨leading 1, ⟨rfl, _, rfl, rfl⟩, appends_leading⟩
  have hended : (sentOn.scene 9).stage = .ended (.ok 2) := rfl
  exact ⟨hrefused 9 0 (by decide), happends,
    fun k number h => honce k number 7 1 h happends, hended, happlied 9 2 hended⟩

/-! ## A reply that is replaced -/

/-- The same, but in place of the last answer the transport says that the node does not
lead. -/
def misledAction : ℕ → Action
  | 8 => .fail (.notLeader none)
  | k => errandAction k

/-- The nodes and the submission before each action. -/
def misledScene (k : ℕ) : Scene Memory :=
  if k ≤ 8 then errandScene k
  else (errandScene 8).moved
    (Submission.afterReply ⟨2, [120], 2⟩ (.error (.notLeader none)))

theorem step_misledScene (k : ℕ) :
    (misledScene k).Step errand (misledAction k) (misledScene (k + 1)) := by
  unfold misledScene
  rcases lt_trichotomy k 8 with hbefore | rfl | hafter
  · have haction : misledAction k = errandAction k := by
      interval_cases k
      all_goals rfl
    rw [if_pos hbefore.le, if_pos (Nat.succ_le_of_lt hbefore), haction]
    exact step_errandScene k
  · exact .moves (.failed rfl)
  · obtain ⟨m, rfl⟩ := Nat.exists_eq_add_of_le' hafter
    rw [if_neg (by omega), if_neg (by omega)]
    exact .idle

/-- The command is appended, and yet the gateway is told that nobody leads. -/
def misled : Relay Memory where
  commission := errand
  scene := misledScene
  action := misledAction
  initial := rfl
  step := step_misledScene

/-- A submission may end as if no node led when a leader has appended the command. -/
theorem misled_appends : ∃ (r : Relay Memory) (k : ℕ) (hint : Option ℕ),
    (r.scene k).stage = .ended (.error (.notLeader hint)) ∧
      ∃ j number, r.Appends j number := by
  have happends : misled.Appends 7 1 :=
    ⟨leading 1, ⟨rfl, _, rfl, rfl⟩, appends_leading⟩
  exact ⟨misled, 9, none, rfl, 7, 1, happends⟩

end Relay

end Consensus
