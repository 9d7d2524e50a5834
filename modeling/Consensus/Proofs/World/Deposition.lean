import Mathlib
import Consensus.Proofs.Node.Preempting
import Consensus.Proofs.World.Tenure

/-!
# Commands of a leadership that is lost

A leader appends a command, and later its caller is told that the leadership was lost
before the entry was committed.  So it was, and the event goes on to commit and apply
nothing of it, but in three cases: the leader's own removal was committed together with
the command, or another leader says that the command is committed, or the leader stands
for election again and needs no vote but its own.  There the caller is told so first,
and the command is applied after.
-/

namespace Consensus

variable {σ : Type} [Storage σ]

namespace Node

variable {n n' : Node σ} {event : Event} {ticket index term : ℕ} {payload : Bytes}

/-- A node starts with everything applied that it knows to be committed. -/
theorem ensures_recover_idle (settings : Settings) (d : Durable σ) :
    Ensures (recover settings) d (fun n _ => n.Idle) fun _ => True := by
  unfold recover
  cases settings.validate with
  | error e => trivial
  | ok a =>
      refine Ensures.anything.andThen fun hard d _ => ?_
      refine Ensures.anything.andThen fun snapshot d _ => ?_
      refine Ensures.anything.andThen fun log d _ => ?_
      apply Ensures.ite
      · intro _
        trivial
      intro _
      refine Ensures.anything.andThen fun applied d _ => ?_
      apply Ensures.ite
      · intro _
        trivial
      · intro _
        exact le_refl applied

omit [Storage σ] in
theorem WaitsOnly.awaits (h : n.WaitsOnly ticket index term payload)
    (hwaits : n.Waits ticket) : n.Awaits ticket index term payload := by
  obtain ⟨i, w, hw, hfound⟩ := hwaits
  obtain ⟨rfl, rfl, hentry⟩ := h i w hw hfound
  obtain ⟨term, found⟩ := w
  obtain rfl : found = ticket := hfound
  exact ⟨hw, hentry⟩

/-- A caller that is told at an event of somebody else that the leadership is lost has
waited for its entry. -/
theorem Course.deposed (h : Course event n n') (hn : n.Steady)
    (hnew : n.effects = []) (hevent : event.IsHarmless n)
    (hticket : event.ticket? ≠ some ticket)
    (honly : n.WaitsOnly ticket index term payload)
    (hin : .lost ticket ∈ n'.effects) : Deposed event n n' ticket index term payload := by
  obtain ⟨k, hopening, hsettling⟩ := h
  have hk := hopening.steady hn hevent
  have hnone : .lost ticket ∉ n.effects := by
    rw [hnew]
    exact List.not_mem_nil
  rcases hsettling.tells hk hin with hearlier | ⟨m, hm, hself, hquits, hafter⟩
  · obtain ⟨m, s, disk, hm, hturns, hdeed, hquits, hafter⟩ :=
      (hopening.tells hn hevent hearlier).resolve_left hnone
    have hleads := Opening.leads hm hn hevent hticket hquits.waits
    have hretains := Opening.retains hm hn hevent hticket
    exact .turned hm hleads hturns hdeed hquits
      ((honly.retains hretains).awaits hquits.waits) ⟨k, hafter, hsettling⟩
  · have hbefore : Course event n m := ⟨k, hopening, hm⟩
    have hretains := hbefore.retains hn hevent hticket
    exact .retired hbefore hself hquits
      ((honly.retains hretains).awaits hquits.waits) hafter

end Node

namespace Tenure

variable {t : Tenure σ} {j k ticket index : ℕ} {payload : Bytes} {m : Node σ}

/-- The event ends well. -/
def EndsWell (t : Tenure σ) (j : ℕ) : Prop :=
  (outcome (Node.handle (t.event j)) (t.node j)).1 = .ok ()

/-- Where the event takes the node, or where it is when the event fails. -/
def Reaches (t : Tenure σ) (j : ℕ) (m : Node σ) : Prop :=
  Node.Course (t.event j) (t.node j) m ∧
    (m = t.result j ∨ ¬ t.EndsWell j ∧ Node.Fails (t.event j) m (t.result j))

/-- Before each event all is applied that the node knows to be committed. -/
theorem idle (t : Tenure σ) (hrests : t.Rests k) : (t.node k).Idle := by
  induction k with
  | zero =>
      obtain ⟨settings, d, d', hrun⟩ := t.starts
      exact (Node.ensures_recover_idle settings d).ok hrun
  | succ k ih =>
      obtain ⟨hle, hwell⟩ := hrests
      have hk := ih (rests_of_lt hle)
      have hrun := eq_ok_of_outcome (hwell k rfl)
      have hidle := (Node.endsIdle_handle hk (t.event k)).ok hrun
      rw [t.handles k hle] at hidle
      rw [t.next k hle]
      exact hidle

theorem idle_result (hlt : j < t.length) (hwell : t.EndsWell j) :
    (t.result j).Idle := by
  have hrun := eq_ok_of_outcome hwell
  have hidle := (Node.endsIdle_handle (t.idle (rests_of_lt hlt)) (t.event j)).ok hrun
  rw [t.handles j hlt] at hidle
  exact hidle

theorem Reaches.eq_result (h : t.Reaches j m) (hwell : t.EndsWell j) :
    m = t.result j :=
  h.2.resolve_right fun hfailed => hfailed.1 hwell

/-- Whatever the node has told by the end it has told when it gets there. -/
theorem Reaches.mem_effects (h : t.Reaches j m) {effect : Effect}
    (hin : effect ∈ (t.result j).effects) : effect ∈ m.effects := by
  rcases h.2 with rfl | ⟨-, hfails⟩
  · exact hin
  · exact hfails.effects.subset hin

/-- The node gets to the end of its event, or to where it fails. -/
theorem exists_reaches (hlt : j < t.length) : ∃ m, t.Reaches j m := by
  have hsaved := (ready_of_lt hlt).saved
  have hhandles := t.handles j hlt
  by_cases hwell : t.EndsWell j
  · have hcourse := Node.course_of_outcome hsaved hwell
    rw [hhandles] at hcourse
    exact ⟨t.result j, hcourse, Or.inl rfl⟩
  · rcases Node.ends_of_outcome hsaved hhandles with hcourse | ⟨m, hcourse, hfails⟩
    · exact ⟨t.result j, hcourse, Or.inl rfl⟩
    · exact ⟨m, hcourse, Or.inr ⟨hwell, hfails⟩⟩

/-- Whoever is told that the leadership is lost waits for its own entry until then. -/
theorem Accepts.exists_deposed (h : t.Accepts k ticket index payload)
    (hlt : j < t.length) (hlost : .lost ticket ∈ (t.result j).effects) :
    ∃ m, t.Reaches j m ∧ Node.Deposed (t.event j) (t.node j) m ticket index
      (t.node k).standing.currentTerm payload := by
  have hready := ready_of_lt hlt
  rcases lt_trichotomy j k with hearlier | rfl | hlater
  · -- before its own event nobody is answered
    have howed := h.owed hlt
    rw [if_neg (by omega), t.countP_toldBefore] at howed
    have hpaid : 0 < (t.result j).effects.countP (·.Pays ticket) :=
      List.countP_pos_iff.mpr ⟨_, hlost, beq_self_eq_true ticket⟩
    omega
  · -- the event that brings the command commits and applies as a heartbeat does
    have hheard : (t.event j).leader? = none := by
      rw [h.event]
      rfl
    obtain ⟨journal, m, hopens, hsteady, honly, hsettling, hend⟩ := h.exists_settling
    have hcourse : Node.Course (t.event j) (t.node j) m :=
      ⟨_, .single hopens, hsettling.of_heartbeat hheard⟩
    have hreaches : t.Reaches j m := by
      refine ⟨hcourse, hend.imp_right fun ⟨hfails, hwell⟩ => ?_⟩
      exact ⟨hwell, hfails.of_heartbeat _⟩
    have hnone : .lost ticket ∉
        ((t.node j).accepting journal index ticket).effects := by
      change .lost ticket ∉ (t.node j).effects
      rw [hready.effects]
      exact List.not_mem_nil
    obtain ⟨x, hx, hself, hquits, hafter⟩ :=
      (hsettling.tells hsteady (hreaches.mem_effects hlost)).resolve_left hnone
    have hawaits := (honly.retains (hx.retains hsteady)).awaits hquits.waits
    exact ⟨m, hreaches, .retired ⟨_, .single hopens, hx.of_heartbeat hheard⟩ hself
      hquits hawaits (hafter.of_heartbeat _)⟩
  · obtain ⟨m, hreaches⟩ := t.exists_reaches hlt
    exact ⟨m, hreaches, hreaches.1.deposed hready.steady hready.effects (isHarmless hlt)
      (h.ticket?_ne hlt hlater.ne') (h.waitsOnly hlater (rests_of_lt hlt))
      (hreaches.mem_effects hlost)⟩

/-- Whoever is told that the leadership is lost has a command that is neither committed
nor applied by the end of the event, or belied by it.  An event that ends well and
replaces nothing applies the command after that if, and only if, it belies the answer. -/
theorem lost_unless_committed (t : Tenure σ) (h : t.Accepts k ticket index payload)
    (hlt : j < t.length) (hlost : .lost ticket ∈ (t.result j).effects) :
    (∃ m, t.Reaches j m ∧ (Node.Forgoes (t.event j) (t.node j) m index ∨
      index ≤ m.standing.commitIndex ∧
        Node.Belies (t.event j) (t.node j) m index)) ∧
    (t.EndsWell j → (t.event j).Spares (t.node j).log index →
      (ToldFirst (t.result j).effects ticket index payload ↔
        index ≤ (t.result j).standing.commitIndex ∧
          Node.Belies (t.event j) (t.node j) (t.result j) index)) := by
  have hready := ready_of_lt hlt
  have hharmless := isHarmless hlt
  obtain ⟨m, hreaches, hdeposed⟩ := h.exists_deposed hlt hlost
  have hcases := hdeposed.forgoes_or_belies hready.steady hready.effects
    (t.idle (rests_of_lt hlt)) hharmless
  refine ⟨⟨m, hreaches, hcases⟩, fun hwell hspares => ?_⟩
  obtain rfl := hreaches.eq_result hwell
  constructor
  · rintro ⟨before, after, heffects, hafter⟩
    refine hcases.resolve_left fun hforgoes => hforgoes.unapplied payload ?_
    rw [heffects]
    exact List.mem_append_right _ (List.mem_cons_of_mem _ hafter)
  · rintro ⟨hcommit, -⟩
    exact hdeposed.toldFirst hready.steady hharmless hspares (idle_result hlt hwell)
      hcommit

/-! ## A leader that removes itself -/

/-- One of two members is elected, takes its own removal and a command, and the other
member acknowledges both at once. -/
def leavingEvent : ℕ → Event
  | 0 => .campaign
  | 1 => .voteReply 2 1 ⟨1, true⟩
  | 2 => .change 6 (.remove 1)
  | 3 => .command 7 [120]
  | 4 => .replicationReply 2 ⟨1, .append 0 1⟩ (some (.appendEntries ⟨1, true, 1⟩))
  | _ => .replicationReply 2 ⟨1, .append 1 2⟩ (some (.appendEntries ⟨1, true, 3⟩))

/-- The node before each of these events, on a disk in memory. -/
def leavingNode : ℕ → Node Memory :=
  (Node.fresh { members := [1, 2] } ⟨{}, {}⟩).along leavingEvent

theorem starts_leavingNode :
    ∃ settings d d', Node.recover settings d = .ok (leavingNode 0) d' :=
  ⟨{ members := [1, 2] }, ⟨{}, {}⟩, _, rfl⟩

theorem goesOn_leavingNode (k : ℕ) (hlt : k < 6) :
    (outcome (Node.handle (leavingEvent k)) (leavingNode k)).1 = .ok () := by
  interval_cases k
  all_goals cbv

theorem agrees_leavingEvent (k : ℕ) : (leavingEvent k).Agrees (leavingNode k) := by
  unfold leavingEvent
  split
  all_goals trivial

/-- The tickets are counted from six. -/
theorem add_four_of_leavingEvent {k ticket : ℕ}
    (h : (leavingEvent k).ticket? = some ticket) : k + 4 = ticket := by
  unfold leavingEvent at h
  split at h
  · exact absurd h (by simp [Event.ticket?])
  · exact absurd h (by simp [Event.ticket?])
  · exact Option.some.inj h
  · exact Option.some.inj h
  · exact absurd h (by simp [Event.ticket?])
  · exact absurd h (by simp [Event.ticket?])

theorem tickets_leavingEvent (k : ℕ) (k' : ℕ) (ticket : ℕ)
    (h : (leavingEvent k).ticket? = some ticket)
    (h' : (leavingEvent k').ticket? = some ticket) : k = k' := by
  have hfirst := add_four_of_leavingEvent h
  have hsecond := add_four_of_leavingEvent h'
  omega

/-- The node stops once it is no member any more. -/
def leaving : Tenure Memory where
  length := 6
  event := leavingEvent
  node := leavingNode
  result k := (outcome (Node.handle (leavingEvent k)) (leavingNode k)).2
  starts := starts_leavingNode
  handles _ _ := rfl
  goesOn k hlt := goesOn_leavingNode k (by omega)
  next _ _ := rfl
  agrees k _ := agrees_leavingEvent k
  tickets k _ k' _ ticket := tickets_leavingEvent k k' ticket

/-- The caller is told at the last event that the leadership is lost, and then the
command is applied, as the leader has ceased to be a member before. -/
theorem lost_leaving :
    leaving.Accepts 3 7 3 [120] ∧ .lost 7 ∈ (leaving.result 5).effects ∧
      ToldFirst (leaving.result 5).effects 7 3 [120] ∧
      3 ≤ (leaving.result 5).standing.commitIndex ∧
      Node.Belies (leaving.event 5) (leaving.node 5) (leaving.result 5) 3 := by
  have hrun : (outcome (Journal.append (leavingNode 3).standing.currentTerm
      (.command [120])) (leavingNode 3).toJournal).1 = .ok 3 := by
    cbv
  have hrole : (leavingNode 3).standing.role = .leader := by cbv
  have haccepts : leaving.Accepts 3 7 3 [120] := by
    exact ⟨by decide, rfl, hrole, _, eq_ok_of_outcome hrun⟩
  have heffects : (leaving.result 5).effects =
      [.answer 6 (.change (.done 1)), .stopReplicator 2] ++
        .lost 7 :: [.resetElectionTimer, .consume 3 [120], .announce 3] := by
    cbv
  have hlost : .lost 7 ∈ (leaving.result 5).effects := by
    rw [heffects]
    exact List.mem_append_right _ List.mem_cons_self
  have htold : ToldFirst (leaving.result 5).effects 7 3 [120] :=
    ⟨_, _, heffects, by decide⟩
  obtain ⟨-, hbelied⟩ := lost_unless_committed leaving haccepts (by decide) hlost
  exact ⟨haccepts, hlost, htold,
    (hbelied (goesOn_leavingNode 5 (by decide)) trivial).mp htold⟩

end Tenure

end Consensus
