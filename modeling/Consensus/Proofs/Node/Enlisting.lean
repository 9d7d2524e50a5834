import Consensus.Proofs.Node.Giving

/-!
# Who waits for a membership change

An operator that asks for a change waits at a leader, for an entry of the leader's
term, and only as long as the node leads in that term.  It is told that the change is
done only once the node has applied that index, and nobody else is told so, except
where the leader finds that nothing is to be changed.
-/

namespace Consensus.Node

variable {σ : Type} {n n' : Node σ} {event : Event} {W : ℕ → Waiter → Prop}

/-! ## Who is there -/

/-- Everybody who waits for a change waits at a leader, for an entry of its term, and
is one of those described. -/
def Enlists (W : ℕ → Waiter → Prop) (n : Node σ) : Prop :=
  ∀ index w, n.changeWaiters.get? index = some w →
    n.standing.role = .leader ∧ w.term = n.standing.currentTerm ∧ W index w

/-- Nobody was told yet that a change is done. -/
def Undone (n : Node σ) : Prop :=
  ∀ ticket reply, .answer ticket (.change reply) ∈ n.effects → reply.status ≠ .ok

/-- Everybody who waits for a change is one of those described, and so was everybody
who was told that it is done. -/
structure Fulfils (W : ℕ → Waiter → Prop) (n : Node σ) : Prop where
  enlists : n.Enlists W
  done : ∀ ticket reply, .answer ticket (.change reply) ∈ n.effects → reply.status = .ok →
    ∃ index w, W index w ∧ w.ticket = ticket ∧ w.term = n.standing.currentTerm ∧
      index ≤ n.standing.lastApplied

theorem Enlists.mono {W' : ℕ → Waiter → Prop} (h : n.Enlists W)
    (hall : ∀ index w, W index w → W' index w) : n.Enlists W' :=
  fun index w hw => (h index w hw).imp_right fun hrest => hrest.imp_right (hall index w)

theorem undone_of_new (h : n.effects = []) : n.Undone := by
  intro ticket reply hin
  rw [h] at hin
  exact absurd hin List.not_mem_nil

theorem Undone.fulfils (h : n.Undone) (henlists : n.Enlists W) : n.Fulfils W where
  enlists := henlists
  done ticket reply hin hok := absurd hok (h ticket reply hin)

theorem enlists_of_none (h : ∀ index, n.changeWaiters.get? index = none) :
    n.Enlists W :=
  fun index _ hw => absurd ((h index).symm.trans hw) (by simp)

theorem Enlists.none_of_role (h : n.Enlists W) (hrole : n.standing.role ≠ .leader)
    (index : ℕ) : n.changeWaiters.get? index = none := by
  cases hget : n.changeWaiters.get? index with
  | none => rfl
  | some w => exact absurd (h index w hget).1 hrole

/-- Whoever waits still waits at a leader that goes on to lead. -/
theorem Enlists.of_waiters (h : n.Enlists W)
    (hwaiters : ∀ index w, n'.changeWaiters.get? index = some w →
      n.changeWaiters.get? index = some w ∧ n'.standing.role = n.standing.role ∧
        n'.standing.currentTerm = n.standing.currentTerm) : n'.Enlists W := by
  intro index w hw
  obtain ⟨hbefore, hrole, hterm⟩ := hwaiters index w hw
  obtain ⟨hleads, hown, hW⟩ := h index w hbefore
  exact ⟨hrole.trans hleads, hown.trans hterm.symm, hW⟩

/-- A node where nobody comes, and that stands where it stood. -/
theorem Enlists.of_same (h : n.Enlists W) (hwaiters : n'.changeWaiters = n.changeWaiters)
    (hrole : n'.standing.role = n.standing.role)
    (hterm : n'.standing.currentTerm = n.standing.currentTerm) : n'.Enlists W :=
  h.of_waiters fun _ _ hw => ⟨hwaiters ▸ hw, hrole, hterm⟩

/-- Nobody waits at a node that does not lead, and nobody comes. -/
theorem Enlists.of_idle (h : n.Enlists W) (hrole : n.standing.role ≠ .leader)
    (hwaiters : n'.changeWaiters = n.changeWaiters) : n'.Enlists W := by
  refine enlists_of_none fun index => ?_
  rw [hwaiters]
  exact h.none_of_role hrole index

theorem Enlists.turned (h : n.Enlists W) {s : Standing} {disk : σ}
    (hs : s.role = .leader → s.currentTerm = n.standing.currentTerm) :
    (n.turned s disk).Enlists W := by
  have hwaiters : (n.turned s disk).changeWaiters = _ := changeWaiters_afterRoleChange _ _
  refine h.of_waiters fun index w hw => ?_
  rw [hwaiters] at hw
  rw [standing_turned]
  split at hw
  · next hcase =>
    have hleads := (h index w hw).1
    have hrole : s.role = .leader := hcase.resolve_left (not_not.mpr hleads)
    exact ⟨hw, hrole.trans hleads.symm, hs hrole⟩
  · exact absurd hw (by simp)

variable [Storage σ]

/-! ## Deeds -/

theorem Opens.undone (h : Opens event n n') (hn : n.Undone) : n'.Undone := by
  intro ticket reply hin
  rcases h.gives hin with hbefore | hlost | ⟨leader, hreplaced⟩
  · exact hn ticket reply hbefore
  · exact Answer.noConfusion hlost
  · rw [Answer.change.inj hreplaced]
    exact ChangeStatus.noConfusion

/-- Taking in an event that is no change, a node may lose those who wait. -/
theorem Opens.enlists (h : Opens event n n') (hn : n.Enlists W)
    (hevent : ∀ ticket change, event ≠ .change ticket change) : n'.Enlists W := by
  cases h with
  | turned hturns => exact hn.turned hturns.currentTerm_of_leader
  | crowned hrole => exact hn.of_idle (by rw [hrole]; simp) rfl
  | proposed hproposed => exact absurd hproposed (hevent _ _)
  | merged htakes => exact hn.of_idle htakes.not_leader rfl
  | rebased hadmits => exact hn.of_idle hadmits.not_leader rfl
  | _ => exact hn.of_same rfl rfl rfl

/-- Whoever is told that its change is done has waited for an index that is applied
now. -/
theorem Closes.fulfils (h : Closes event n n') (hn : n.Fulfils W)
    (hevent : ∀ ticket change, event ≠ .change ticket change) : n'.Fulfils W := by
  have hcourse : n'.standing.currentTerm = n.standing.currentTerm ∧
      n.standing.lastApplied ≤ n'.standing.lastApplied := by
    rcases h.applies_or_calm with ⟨entry, -, -, rfl⟩ | hcalm
    · rw [(enacted_applyEntry n entry _).standing]
      exact ⟨rfl, Nat.le_succ _⟩
    · exact ⟨hcalm.currentTerm, hcalm.lastApplied.ge⟩
  obtain ⟨hterm, hlast⟩ := hcourse
  constructor
  · cases h with
    | @applied entry =>
        have hstanding := (enacted_applyEntry n entry (n.standing.lastApplied + 1)).standing
        refine hn.enlists.of_waiters fun index w hw => ?_
        rw [(n.applyEntry_waiters entry _).2, Table.get?_erase] at hw
        rw [hstanding]
        split at hw
        · exact absurd hw (by simp)
        · exact ⟨hw, rfl, rfl⟩
    | retired =>
        refine hn.enlists.turned fun hrole => ?_
        rw [retiring_eq] at hrole
        exact absurd hrole (by simp)
    | _ => exact hn.enlists.of_same rfl rfl rfl
  · intro ticket reply hin hok
    rw [hterm]
    rcases h.gives hin with hbefore | hgives
    · obtain ⟨index, w, hW, hticket, hw, hle⟩ := hn.done ticket reply hbefore hok
      exact ⟨index, w, hW, hticket, hw, hle.trans hlast⟩
    · cases hgives with
      | replaced => exact ChangeStatus.noConfusion hok
      | @done w leader hnext hw =>
          obtain ⟨-, hown, hW⟩ := hn.enlists _ w hw
          exact ⟨_, w, hW, rfl, hown, le_rfl⟩
      | answered hanswers =>
          cases hanswers with
          | change | busy => exact ChangeStatus.noConfusion hok
          | unchanged => exact absurd rfl (hevent _ _)

/-! ## Events -/

/-- What follows from an event that is no change, once it is taken in. -/
theorem Settling.fulfils (h : Settling event n n') (hn : n.Enlists W) (hundone : n.Undone)
    (hevent : ∀ ticket change, event ≠ .change ticket change) : n'.Fulfils W := by
  obtain ⟨m, hcommitting, hclosing⟩ := h
  refine keeps_of_reflTransGen hclosing (fun _ _ hstep ha => hstep.fulfils ha hevent) ?_
  cases hcommitting with
  | refl => exact hundone.fulfils hn
  | single hstep =>
      cases hstep with
      | committed => exact Undone.fulfils hundone hn

/-- At an event that is no change, nobody but those who wait is told that a change is
done. -/
theorem Course.fulfils (h : Course event n n') (hn : n.Enlists W) (hundone : n.Undone)
    (hevent : ∀ ticket change, event ≠ .change ticket change) : n'.Fulfils W := by
  obtain ⟨m, hopening, hsettling⟩ := h
  obtain ⟨hm, hundone'⟩ : m.Enlists W ∧ m.Undone := by
    refine keeps_of_reflTransGen hopening (I := fun m => m.Enlists W ∧ m.Undone) ?_
      ⟨hn, hundone⟩
    rintro a b hstep ⟨ha, hu⟩
    exact ⟨hstep.enlists ha hevent, hstep.undone hu⟩
  exact hsettling.fulfils hm hundone' hevent

/-- A snapshot from a leader makes a node tell nobody that a change is done. -/
theorem Course.undone_of_install {ticket : ℕ} {request : InstallRequest}
    (h : Course (.installRequest ticket request) n n')
    (happlied : n.standing.lastApplied = n.standing.commitIndex)
    (hundone : n.Undone) : n'.Undone := by
  refine h.keeps_of_install happlied (fun a b hstep ha => hstep.undone ha)
    (fun a b hstep hcalm ha => ?_) hundone
  intro told reply hin
  rcases hstep.gives hin with hbefore | hgives
  · exact ha told reply hbefore
  · cases hgives with
    | replaced => exact ChangeStatus.noConfusion
    | done leader hnext =>
        have hlast := hcalm.lastApplied
        omega
    | answered hanswers => cases hanswers

/-! ## Asking for a change -/

/-- A leader that has appended a new membership, with the operator waiting. -/
def enlisting (n : Node σ) (j : Journal σ) (ticket : ℕ) (members : NodeSet) : Node σ :=
  { n with toJournal := j }.proposing (n.log.lastIndex + 1) ticket members

section

omit [Storage σ]

variable {j : Journal σ} {ticket : ℕ} {members : NodeSet}

/-- The operator comes to those who wait already. -/
theorem Enlists.enlisting (h : n.Enlists W) (hrole : n.standing.role = .leader)
    (hnew : W (n.log.lastIndex + 1) ⟨n.standing.currentTerm, ticket⟩) :
    (n.enlisting j ticket members).Enlists W := by
  intro index w hw
  have hw : (n.changeWaiters.insert (n.log.lastIndex + 1)
      ⟨n.standing.currentTerm, ticket⟩).get? index = some w := hw
  rw [Table.get?_insert] at hw
  split at hw
  · next hindex =>
    obtain rfl := Option.some.inj hw
    rw [hindex]
    exact ⟨hrole, rfl, hnew⟩
  · exact h index w hw

theorem Undone.enlisting (h : n.Undone) : (n.enlisting j ticket members).Undone :=
  fun told reply hin =>
    h told reply (answer_mem_syncPeers _ (j.log.lastIndex + 1) hin)

end

/-- A change is refused, or done because there is nothing to change, or the leader
appends the new membership and does what follows. -/
inductive Decides (n : Node σ) (ticket : ℕ) (change : ServerChange) : Node σ → Prop
  | refuses (leader : Option ℕ)
      (hbusy : n.standing.role = .leader → n.membership.pending.isSome = true) :
      Decides n ticket change (n.emit (.answer ticket (.change (.refused leader))))
  | keeps (hrole : n.standing.role = .leader)
      (hfree : n.membership.pending.isSome = false)
      (hsame : n.membership.committed.isUnchangedBy change = true) :
      Decides n ticket change (n.emit (.answer ticket (.change (.done n.self))))
  | proposes {j : Journal σ} {n' : Node σ} (hrole : n.standing.role = .leader)
      (hfree : n.membership.pending.isSome = false)
      (hnew : n.membership.committed.isUnchangedBy change = false)
      (hlog : j.log = n.log.push ⟨n.standing.currentTerm, n.log.lastIndex + 1,
        .config (n.membership.committed.withChange change)⟩)
      (hsettling : Settling .heartbeat
        (n.enlisting j ticket (n.membership.committed.withChange change)) n') :
      Decides n ticket change n'

theorem handle_change [Storage.Faithful σ] (hn : n.Saved) {ticket : ℕ}
    {change : ServerChange} (hrun : Node.handle (.change ticket change) n = .ok () n') :
    n.Decides ticket change n' := by
  have hruns : Ensures (Node.handle (.change ticket change)) n
      (fun _ n' => n.Decides ticket change n') fun _ => True := by
    unfold Node.handle handleChange
    rw [Ensures.get_bind_iff]
    refine Ensures.ite (fun hrole => .refuses _ fun hleads => absurd hleads hrole)
      fun hleads => ?_
    have hleads := not_not.mp hleads
    refine Ensures.ite (fun hbusy => .refuses _ fun _ => hbusy) fun hfree => ?_
    have hfree := Bool.eq_false_of_not_eq_true hfree
    refine Ensures.ite (fun hsame => .keeps hleads hfree hsame) fun hnew => ?_
    have hnew := Bool.eq_false_of_not_eq_true hnew
    refine Ensures.bind (Ensures.onJournal (fun index j hrun => ?_) fun _ _ _ => trivial)
    obtain ⟨rfl, hlog, -⟩ := (Journal.ensures_append n.toJournal _ _).ok hrun
    rw [Ensures.modify_bind_iff]
    -- what follows is the same as at a heartbeat
    have hspread : Does .heartbeat (Settling .heartbeat
          (n.enlisting j ticket (n.membership.committed.withChange change)))
        (advanceCommit >>= fun _ => replicateAll)
        (n.enlisting j ticket (n.membership.committed.withChange change))
        fun _ _ => True := does_spread hn rfl
    exact Ensures.mono hspread
      (fun _ n' h => .proposes hleads hfree hnew hlog h.1) fun _ _ => trivial
  exact hruns.ok hrun

/-- What follows from an event leaves what the log has at an index, unless that is
compacted. -/
theorem Settling.get?_kept (h : Settling event n n') {index : ℕ} {entry : Entry}
    (hget : n.log.get? index = some entry) (hlt : n'.log.snapshotIndex < index) :
    n'.log.get? index = some entry := by
  obtain ⟨m, hcommitting, hclosing⟩ := h
  refine keeps_of_reflTransGen hclosing (I := fun m =>
    m.log.snapshotIndex < index → m.log.get? index = some entry) ?_ ?_ hlt
  · rintro a b hstep ha
    cases hstep with
    | @applied entry =>
        have hsame := congrArg Journal.log
          (enacted_applyEntry a entry (a.standing.lastApplied + 1)).journal
        rw [show (a.applyEntry entry (a.standing.lastApplied + 1)).log = a.log from hsame]
        exact ha
    | retired =>
        rw [log_turned]
        exact ha
    | @compacted term disk j hlong hsaved hrun =>
        have hlog : j.log = a.log.dropThrough a.standing.lastApplied term :=
          Journal.log_compactTo (j := ⟨a.log, disk⟩) hlong.new hrun
        change j.log.snapshotIndex < index → j.log.get? index = some entry
        rw [hlog]
        intro hnext
        have hnew : a.standing.lastApplied < index := hnext
        rw [Log.get?_dropThrough hlong.new.le hnew]
        exact ha (hlong.new.trans hnew)
    | _ => exact ha
  · intro _
    cases hcommitting with
    | refl => exact hget
    | single hstep =>
        cases hstep with
        | committed => exact hget

/-- Where a change is appended the log has the new membership, unless that is compacted
at once. -/
theorem get?_of_handle_change [Storage.Faithful σ] (hn : n.Saved) {ticket : ℕ}
    {change : ServerChange} (hrun : Node.handle (.change ticket change) n = .ok () n')
    (hrole : n.standing.role = .leader) (hfree : n.membership.pending.isSome = false)
    (hnew : n.membership.committed.isUnchangedBy change = false)
    (hends : n.log.EndsAt n.log.lastIndex)
    (hroom : n'.log.snapshotIndex < n.log.lastIndex + 1) :
    n'.log.get? (n.log.lastIndex + 1) = some ⟨n.standing.currentTerm,
      n.log.lastIndex + 1, .config (n.membership.committed.withChange change)⟩ := by
  cases handle_change hn hrun with
  | refuses leader hbusy =>
      exact absurd (hfree.symm.trans (hbusy hrole)) Bool.false_ne_true
  | keeps _ _ hsame => exact absurd (hnew.symm.trans hsame) Bool.false_ne_true
  | @proposes j _ _ _ _ hlog hsettling =>
      refine hsettling.get?_kept ?_ hroom
      change j.log.get? _ = _
      rw [hlog]
      exact hends.get?_push _

end Consensus.Node
