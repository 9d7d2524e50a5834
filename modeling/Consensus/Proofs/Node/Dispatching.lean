import Mathlib
import Consensus.Proofs.Node.Fresh
import Consensus.Proofs.Node.Level
import Consensus.Proofs.Node.Tracing

/-!
# Requests with replicators

A leader hands a request to the replicator of a peer only if none is under way, and it
goes by a flag in the progress of the peer.  A reply clears the flag if it is of the
leader's term and the leader knows the peer.  So the reply of an earlier replicator
counts as well: a peer that is removed and added again in one term has a new
replicator, and a reply that the old one left behind clears the flag while the new one
still carries its request.

Each such stray reply makes room for one request too many, and nothing else does.
-/

namespace Consensus

/-- A request that was handed to a replicator.  The replicators of a peer are counted
as they are started. -/
structure Handed where
  peer : ℕ
  replicator : ℕ
  batch : Batch
deriving DecidableEq

/-- What went to the replicators, as an onlooker keeps track of it. -/
structure Traffic where
  /-- How many replicators were started for a peer. -/
  started : ℕ → ℕ := fun _ => 0
  /-- The requests whose reply the node has not handled. -/
  pending : List Handed := []
  /-- How many replies of earlier replicators counted for a peer since the latest one
  was started. -/
  strays : ℕ → ℕ := fun _ => 0

namespace Traffic

/-- After an effect. -/
def caused (t : Traffic) : Effect → Traffic
  | .startReplicator peer =>
    { t with
      started := Function.update t.started peer (t.started peer + 1)
      strays := Function.update t.strays peer 0 }
  | .dispatch peer _ batch =>
    { t with pending := ⟨peer, t.started peer, batch⟩ :: t.pending }
  | _ => t

/-- After effects, one by one. -/
def causedAll (t : Traffic) (effects : List Effect) : Traffic := effects.foldl caused t

/-- How many requests the latest replicator of the peer was handed whose reply was not
handled. -/
def outstanding (t : Traffic) (peer : ℕ) : ℕ :=
  t.pending.countP fun h => decide (h.peer = peer ∧ h.replicator = t.started peer)

/-- No request is with a replicator that was not started. -/
def Known (t : Traffic) : Prop := ∀ h ∈ t.pending, h.replicator ≤ t.started h.peer

/-- A peer has at most one request more outstanding than stray replies, and no more
than those if its flag is clear or to be cleared. -/
def Within (t : Traffic) (cleared : Prop) (peer : ℕ) (progress : Progress) : Prop :=
  t.outstanding peer ≤ t.strays peer + 1 ∧
    (progress.inFlight = false ∨ cleared → t.outstanding peer ≤ t.strays peer)

/-- The flags account for the requests that are outstanding. -/
structure Accounts (t : Traffic) (cleared : ℕ → Prop) (peers : Table Progress) : Prop where
  known : t.Known
  within : ∀ peer progress, peers.get? peer = some progress →
    t.Within (cleared peer) peer progress

variable {t : Traffic} {cleared : ℕ → Prop} {peers : Table Progress} {peer other : ℕ}

theorem causedAll_append (t : Traffic) (xs ys : List Effect) :
    t.causedAll (xs ++ ys) = (t.causedAll xs).causedAll ys :=
  List.foldl_append

/-- Most effects do not concern replicators. -/
theorem causedAll_of_forall {effects : List Effect}
    (h : ∀ effect ∈ effects, ∀ t : Traffic, t.caused effect = t) (t : Traffic) :
    t.causedAll effects = t := by
  induction effects with
  | nil => rfl
  | cons effect effects ih =>
      change (t.caused effect).causedAll effects = t
      rw [h effect List.mem_cons_self]
      exact ih fun e he => h e (List.mem_cons_of_mem _ he)

/-! ## What is outstanding -/

theorem Known.start (h : t.Known) (peer : ℕ) :
    (t.caused (.startReplicator peer)).Known := by
  intro handed hin
  refine (h handed hin).trans ?_
  change _ ≤ Function.update t.started peer _ handed.peer
  by_cases hpeer : handed.peer = peer
  · rw [hpeer, Function.update_self]
    exact Nat.le_succ _
  · rw [Function.update_of_ne hpeer]

theorem Known.dispatch (h : t.Known) (peer : ℕ) (request : Request) (batch : Batch) :
    (t.caused (.dispatch peer request batch)).Known := by
  intro handed hin
  rcases List.mem_cons.mp hin with rfl | hbefore
  · exact le_rfl
  · exact h handed hbefore

/-- A new replicator was handed nothing. -/
theorem outstanding_start_self (h : t.Known) (peer : ℕ) :
    (t.caused (.startReplicator peer)).outstanding peer = 0 := by
  refine List.countP_eq_zero.mpr fun handed hin hcounted => ?_
  obtain ⟨hpeer, hlatest⟩ := of_decide_eq_true hcounted
  have hle := h handed hin
  change handed.replicator = Function.update t.started peer _ peer at hlatest
  rw [Function.update_self] at hlatest
  rw [hpeer] at hle
  omega

theorem outstanding_start_of_ne (t : Traffic) (hne : other ≠ peer) :
    (t.caused (.startReplicator peer)).outstanding other = t.outstanding other := by
  unfold outstanding
  change t.pending.countP (fun h => decide (h.peer = other ∧ h.replicator =
    Function.update t.started peer _ other)) = _
  rw [Function.update_of_ne hne]

theorem outstanding_dispatch_self (t : Traffic) (peer : ℕ) (request : Request)
    (batch : Batch) : (t.caused (.dispatch peer request batch)).outstanding peer =
      t.outstanding peer + 1 :=
  List.countP_cons_of_pos (decide_eq_true ⟨rfl, rfl⟩)

theorem outstanding_dispatch_of_ne (t : Traffic) (hne : other ≠ peer)
    (request : Request) (batch : Batch) :
    (t.caused (.dispatch peer request batch)).outstanding other = t.outstanding other :=
  List.countP_cons_of_neg fun hcounted => hne (of_decide_eq_true hcounted).1.symm

/-! ## Flags -/

theorem accounts_empty (hknown : t.Known) : t.Accounts cleared ∅ :=
  ⟨hknown, fun peer _ hnone => absurd hnone (by simp)⟩

namespace Accounts

theorem restrict (h : t.Accounts cleared peers) (keep : ℕ → Bool) :
    t.Accounts cleared (peers.restrict keep) := by
  refine ⟨h.known, fun peer progress hpeer => h.within peer progress ?_⟩
  rw [Table.get?_restrict] at hpeer
  split at hpeer
  · exact hpeer
  · exact absurd hpeer (by simp)

/-- A new peer has a new replicator. -/
theorem start (h : t.Accounts cleared peers) (peer nextIndex : ℕ) :
    (t.caused (.startReplicator peer)).Accounts cleared
      (peers.insert peer (.start nextIndex)) := by
  refine ⟨h.known.start peer, fun other progress hother => ?_⟩
  rw [Table.get?_insert] at hother
  by_cases hne : other = peer
  · rw [hne]
    have hnone := outstanding_start_self h.known peer
    exact ⟨by omega, fun _ => by omega⟩
  · rw [if_neg hne] at hother
    have hwithin := h.within other progress hother
    have hstrays : (t.caused (.startReplicator peer)).strays other = t.strays other :=
      Function.update_of_ne hne _ _
    unfold Within
    rw [outstanding_start_of_ne t hne, hstrays]
    exact hwithin

/-- The replicators of new peers are started one by one. -/
theorem startAll (h : t.Accounts cleared peers) (added : List ℕ) (nextIndex : ℕ) :
    (t.causedAll (added.map .startReplicator)).Accounts cleared
      (added.foldl (fun peers id => peers.insert id (.start nextIndex)) peers) := by
  induction added generalizing t peers with
  | nil => exact h
  | cons id added ih => exact ih (h.start id nextIndex)

/-- The flag is cleared of a peer where it is to be. -/
theorem modify (h : t.Accounts cleared peers) (hcleared : cleared peer)
    (change : Progress → Progress) : t.Accounts cleared (peers.modify peer change) := by
  refine ⟨h.known, fun other progress hother => ?_⟩
  rw [Table.get?_modify] at hother
  split at hother
  · next heq =>
    subst heq
    obtain ⟨old, hold, rfl⟩ := Option.map_eq_some_iff.mp hother
    obtain ⟨hle, hclear⟩ := h.within other old hold
    exact ⟨hle, fun _ => hclear (Or.inr hcleared)⟩
  · exact h.within other progress hother

/-- A request goes out where the flag is clear, and sets it. -/
theorem dispatch (h : t.Accounts (fun _ => False) peers) {progress : Progress}
    (hpeer : peers.get? peer = some progress) (hidle : progress.inFlight = false)
    (request : Request) (batch : Batch) :
    (t.caused (.dispatch peer request batch)).Accounts (fun _ => False)
      (peers.modify peer fun p => { p with inFlight := true }) := by
  refine ⟨h.known.dispatch peer request batch, fun other p hother => ?_⟩
  rw [Table.get?_modify] at hother
  split at hother
  · next heq =>
    subst heq
    obtain ⟨old, -, rfl⟩ := Option.map_eq_some_iff.mp hother
    have hroom := (h.within other progress hpeer).2 (Or.inl hidle)
    unfold Within
    rw [outstanding_dispatch_self]
    refine ⟨Nat.succ_le_succ hroom, fun hclear => ?_⟩
    rcases hclear with hfalse | hfalse
    · exact absurd hfalse (by simp)
    · exact hfalse.elim
  · next hne =>
    unfold Within
    rw [outstanding_dispatch_of_ne t hne]
    exact h.within other p hother

/-- What is to be cleared may be forgotten. -/
theorem settled (h : t.Accounts cleared peers) : t.Accounts (fun _ => False) peers :=
  ⟨h.known, fun peer progress hpeer =>
    (h.within peer progress hpeer).imp_right fun hclear hidle =>
      hclear (hidle.imp_right False.elim)⟩

end Accounts

end Traffic

namespace Node

variable {σ : Type} {n n' : Node σ} {t : Traffic} {cleared : ℕ → Prop} {event : Event}

/-! ## One deed -/

/-- With what the node has caused so far, the flags of its peers account for what is
outstanding. -/
def Accounts (n : Node σ) (cleared : ℕ → Prop) (t : Traffic) : Prop :=
  (t.causedAll n.effects).Accounts cleared n.peers

theorem Accounts.emitAll (h : n.Accounts cleared t) {effects : List Effect}
    (hsilent : ∀ effect ∈ effects, ∀ t : Traffic, t.caused effect = t) :
    (n.emitAll effects).Accounts cleared t := by
  unfold Accounts
  change (t.causedAll (n.effects ++ effects)).Accounts cleared n.peers
  rw [Traffic.causedAll_append, Traffic.causedAll_of_forall hsilent]
  exact h

theorem Accounts.emit (h : n.Accounts cleared t) {effect : Effect}
    (hsilent : ∀ t : Traffic, t.caused effect = t) :
    (n.emit effect).Accounts cleared t :=
  h.emitAll fun e he t => by rw [List.mem_singleton.mp he, hsilent]

/-- One effect for each of a list of peers or waiters. -/
theorem Accounts.emitMap {α : Type} (h : n.Accounts cleared t) (items : List α)
    {effect : α → Effect} (hsilent : ∀ item, ∀ t : Traffic, t.caused (effect item) = t) :
    (n.emitAll (items.map effect)).Accounts cleared t := by
  refine h.emitAll fun e he => ?_
  obtain ⟨item, -, rfl⟩ := List.mem_map.mp he
  exact hsilent item

theorem Accounts.stopReplication (h : n.Accounts cleared t) :
    n.stopReplication.Accounts cleared t := by
  have hstopped : (n.emitAll (n.peers.keys.map .stopReplicator)).Accounts cleared t :=
    h.emitMap _ fun _ _ => rfl
  exact Traffic.accounts_empty hstopped.known

theorem Accounts.dismissWaiters (h : n.Accounts cleared t) (command change : Answer) :
    (n.dismissWaiters command change).Accounts cleared t := by
  have hanswered : (n.emitAll
      (n.commandWaiters.values.map (fun w => .answer w.ticket command) ++
        n.changeWaiters.values.map fun w => .answer w.ticket change)).Accounts
          cleared t := by
    refine h.emitAll fun effect heffect t => ?_
    rw [List.mem_append, List.mem_map, List.mem_map] at heffect
    rcases heffect with ⟨w, -, rfl⟩ | ⟨w, -, rfl⟩ <;> rfl
  exact hanswered

theorem Accounts.syncPeers (h : n.Accounts cleared t) (targets : NodeSet)
    (nextIndex : ℕ) : (n.syncPeers targets nextIndex).Accounts cleared t := by
  let dropped := n.peers.keys.filter fun id => decide (id ∉ targets)
  have hstopped : (n.emitAll (dropped.map .stopReplicator)).Accounts cleared t :=
    h.emitMap _ fun _ _ => rfl
  have hkept := hstopped.restrict fun id => decide (id ∈ targets)
  have hstarted := hkept.startAll (targets.toList.filter fun id =>
    decide (id ≠ n.self) && (n.peers.get? id).isNone) nextIndex
  unfold Accounts
  rw [← Traffic.causedAll_append] at hstarted
  change (t.causedAll (n.effects ++ (_ ++ _))).Accounts _ _
  rw [← List.append_assoc]
  exact hstarted

theorem Accounts.afterRoleChange (h : n.Accounts cleared t) (before : Role) :
    (n.afterRoleChange before).Accounts cleared t := by
  unfold Node.afterRoleChange
  split
  · exact h
  · exact (h.stopReplication.dismissWaiters _ _).emit fun _ => rfl

theorem Accounts.turned (h : n.Accounts cleared t) (s : Standing) (disk : σ) :
    (n.turned s disk).Accounts cleared t :=
  Accounts.afterRoleChange
    (n := { n with standing := s, disk := disk, persisted := s.hardState }) h _

theorem Accounts.crowned (h : n.Accounts cleared t) : n.crowned.Accounts cleared t := by
  have hleads : (n.mapStanding (·.becomeLeader n.self)).Accounts cleared t := h
  exact hleads.stopReplication.syncPeers _ _

theorem Accounts.enact (h : n.Accounts cleared t) (entry : Entry) (index : ℕ) :
    (n.enact entry index).Accounts cleared t := by
  unfold Node.enact
  split
  · exact h
  · exact h.emit fun _ => rfl
  · next members _ =>
    unfold adoptMembers
    have hadopts : Accounts { n with membership := n.membership.onCommit index members }
        cleared t := h
    dsimp only
    split
    · exact hadopts.syncPeers _ _
    · exact hadopts

theorem Accounts.answerCommand (h : n.Accounts cleared t) (index term : ℕ) :
    (n.answerCommand index term).Accounts cleared t := by
  unfold Node.answerCommand
  split
  · exact h
  · exact h.emit fun _ => rfl

theorem Accounts.answerChange (h : n.Accounts cleared t) (index term : ℕ) :
    (n.answerChange index term).Accounts cleared t := by
  unfold Node.answerChange
  split
  · exact h
  · exact h.emit fun _ => rfl

theorem Accounts.applyEntry (h : n.Accounts cleared t) (entry : Entry) (index : ℕ) :
    (n.applyEntry entry index).Accounts cleared t := by
  have happlied : ((n.enact entry index).mapStanding fun s =>
      { s with lastApplied := index }).Accounts cleared t := h.enact entry index
  exact (happlied.answerCommand index entry.term).answerChange index entry.term

variable [Storage σ]

/-- Taking an event in clears no flag but that of the peer whose reply it is. -/
theorem Opens.accounts (hopens : Opens event n n') (h : n.Accounts cleared t)
    (hcleared : ∀ peer batch response,
      event = .replicationReply peer batch response → cleared peer) :
    n'.Accounts cleared t := by
  cases hopens with
  | turned => exact h.turned _ _
  | waited => exact h.emit fun _ => rfl
  | crowned => exact h.crowned
  | proposed => exact Accounts.syncPeers h _ _
  | recorded hevent =>
      exact Traffic.Accounts.modify h (hcleared _ _ _ hevent) _
  | counted => exact h
  | noted => exact h
  | accepted => exact h
  | merged => exact h
  | refreshed => exact h
  | rebased => exact h

omit [Storage σ] in
theorem Commits.accounts (hcommits : Commits event n n') (h : n.Accounts cleared t) :
    n'.Accounts cleared t := by
  cases hcommits with
  | committed => exact h

/-- What follows from an event sets a flag for every request that goes out. -/
theorem Closes.accounts (hcloses : Closes event n n')
    (h : n.Accounts (fun _ => False) t) : n'.Accounts (fun _ => False) t := by
  cases hcloses with
  | applied => exact h.applyEntry _ _
  | retired => exact h.turned _ _
  | announced => exact h.emit fun _ => rfl
  | @dispatched peer progress request kind hrole hpeer hidle hsends =>
      have hsent := Traffic.Accounts.dispatch h hpeer hidle request
        ⟨n.standing.currentTerm, kind⟩
      unfold Accounts
      change (t.causedAll (n.effects ++ [_])).Accounts _ _
      rw [Traffic.causedAll_append]
      exact hsent
  | campaigned => exact h.emitMap _ fun _ _ => rfl
  | answered => exact h.emit fun _ => rfl
  | compacted => exact h

/-- The flags that an event may clear account for what is outstanding, and so they do
after it. -/
theorem Course.accounts (hcourse : Course event n n') (h : n.Accounts cleared t)
    (hcleared : ∀ peer batch response,
      event = .replicationReply peer batch response → cleared peer) :
    n'.Accounts (fun _ => False) t := by
  obtain ⟨m, hopening, k, hcommitting, hclosing⟩ := hcourse
  have hm : m.Accounts cleared t :=
    keeps_of_reflTransGen hopening (fun _ _ hopens hn => hopens.accounts hn hcleared) h
  have hk : k.Accounts cleared t := by
    cases hcommitting with
    | refl => exact hm
    | single hstep => exact hstep.accounts hm
  exact keeps_of_reflTransGen hclosing (fun _ _ hcloses hn => hcloses.accounts hn)
    (Traffic.Accounts.settled hk)

/-! ## Replies -/

omit [Storage σ] in
/-- A reply counts for the leader of its term who knows the peer. -/
def Hears (n : Node σ) (h : Handed) : Prop :=
  n.standing.role = .leader ∧ h.batch.term = n.standing.currentTerm ∧
    (n.peers.get? h.peer).isSome = true

instance (n : Node σ) (h : Handed) : Decidable (n.Hears h) := instDecidableAnd

/-- A reply that does not count changes nothing. -/
theorem handle_of_not_hears {h : Handed} (hears : ¬ n.Hears h)
    (response : Option Response) :
    handle (.replicationReply h.peer h.batch response) n = .ok () n := by
  have hignored : n.standing.role ≠ .leader ∨
      h.batch.term ≠ n.standing.currentTerm ∨
        (n.peers.get? h.peer).isNone = true := by
    by_contra hnot
    obtain ⟨hrole, hrest⟩ := not_or.mp hnot
    obtain ⟨hterm, hknown⟩ := not_or.mp hrest
    refine hears ⟨not_not.mp hrole, not_not.mp hterm, ?_⟩
    exact Option.isSome_iff_ne_none.mpr fun hnone => hknown (by rw [hnone]; rfl)
  change (ite _ _ _ : Act σ Unit) n = _
  rw [if_pos hignored]
  rfl

end Node

namespace Traffic

variable {σ : Type} {n : Node σ} {t : Traffic} {h : Handed} {peer : ℕ}

/-- After the node has taken the reply to a request. -/
def replied (t : Traffic) (n : Node σ) (h : Handed) : Traffic :=
  { t with
    pending := t.pending.erase h
    strays := if n.Hears h ∧ h.replicator ≠ t.started h.peer then
      Function.update t.strays h.peer (t.strays h.peer + 1) else t.strays }

/-- Only the reply of the latest replicator settles what is outstanding. -/
theorem outstanding_replied (hin : h ∈ t.pending) (n : Node σ) (peer : ℕ) :
    (t.replied n h).outstanding peer = t.outstanding peer -
      if h.peer = peer ∧ h.replicator = t.started peer then 1 else 0 := by
  change (t.pending.erase h).countP (fun handed =>
    decide (handed.peer = peer ∧ handed.replicator = t.started peer)) = _
  rw [List.countP_erase, outstanding]
  simp only [hin, true_and, decide_eq_true_iff]

theorem strays_replied (t : Traffic) (n : Node σ) (h : Handed) (peer : ℕ) :
    (t.replied n h).strays peer =
      if n.Hears h ∧ h.peer = peer ∧ h.replicator ≠ t.started peer then
        t.strays peer + 1 else t.strays peer := by
  unfold Traffic.replied
  dsimp only
  by_cases hpeer : h.peer = peer
  · subst hpeer
    simp only [true_and]
    split
    · exact Function.update_self ..
    · rfl
  · have hnone : ¬ (n.Hears h ∧ h.peer = peer ∧ h.replicator ≠ t.started peer) :=
      fun hstray => hpeer hstray.2.1
    rw [if_neg hnone]
    split
    · exact Function.update_of_ne (Ne.symm hpeer) ..
    · rfl

/-- A reply that counts clears the flag of its peer. -/
theorem Accounts.replied {peers : Table Progress}
    (haccounts : t.Accounts (fun _ => False) peers) (hin : h ∈ t.pending) (n : Node σ) :
    (t.replied n h).Accounts (fun peer => n.Hears h ∧ peer = h.peer) peers := by
  refine ⟨fun handed hhanded => haccounts.known handed (List.mem_of_mem_erase hhanded),
    fun peer progress hpeer => ?_⟩
  obtain ⟨hle, hclear⟩ := haccounts.within peer progress hpeer
  unfold Within
  rw [outstanding_replied hin, strays_replied]
  split_ifs with hlatest hstray hstray
  · exact absurd hlatest.2 hstray.2.2
  · -- the request that ended was outstanding
    exact ⟨by omega, fun _ => by omega⟩
  · -- the flag is cleared in spite of what is outstanding
    exact ⟨by omega, fun _ => by omega⟩
  · refine ⟨by omega, fun hcleared => ?_⟩
    rcases hcleared with hidle | ⟨hhears, rfl⟩
    · have hroom := hclear (Or.inl hidle)
      omega
    · exact absurd ⟨hhears, rfl, fun hsame => hlatest ⟨rfl, hsame⟩⟩ hstray

/-! ## Runs -/

/-- What happens to a node next: a reply to a request that it handed over, or any other
event. -/
inductive Turn where
  | takes (event : Event)
  | hears (h : Handed) (response : Option Response)

namespace Turn

/-- The event that the node handles. -/
def event : Turn → Event
  | takes event => event
  | hears h response => .replicationReply h.peer h.batch response

/-- Replies come to requests that were handed over, in any order and only once. -/
def Fits (t : Traffic) : Turn → Prop
  | takes event => ∀ peer batch response, event ≠ .replicationReply peer batch response
  | hears h _ => h ∈ t.pending

/-- The traffic once the node has taken the event in. -/
def taken (t : Traffic) (n : Node σ) : Turn → Traffic
  | takes _ => t
  | hears h _ => t.replied n h

end Turn

end Traffic

namespace Node

variable {σ : Type} [Storage σ] {n n' : Node σ} {t : Traffic} {peer : ℕ}

/-- A node that was started gets to where it is, and the traffic with its replicators
to where that is, by events that end well. -/
inductive Carries : Node σ → Traffic → Prop
  | starts {settings : Settings} {d d' : Durable σ} {n : Node σ}
      (hrun : recover settings d = .ok n d') : Carries n {}
  | goesOn {n n' : Node σ} {t : Traffic} (hcarries : Carries n t) (turn : Traffic.Turn)
      (hfits : turn.Fits t) (hrun : handle turn.event n = .ok () n') :
      Carries { n' with effects := [] } ((turn.taken t n).causedAll n'.effects)

/-- What holds between two events. -/
structure Accounted (n : Node σ) (t : Traffic) : Prop where
  saved : n.Saved
  effects : n.effects = []
  accounts : t.Accounts (fun _ => False) n.peers

/-- One event of a run. -/
theorem Accounted.handle (h : n.Accounted t) {turn : Traffic.Turn} (hfits : turn.Fits t)
    (hrun : Node.handle turn.event n = .ok () n') :
    Accounted { n' with effects := [] } ((turn.taken t n).causedAll n'.effects) := by
  have hcourse := (handle_runs h.saved turn.event).ok hrun
  have hstart : ∀ {cleared : ℕ → Prop} {t : Traffic}, t.Accounts cleared n.peers →
      n.Accounts cleared t := by
    intro cleared t haccounts
    rw [Accounts, h.effects]
    exact haccounts
  refine ⟨hcourse.saved h.saved, rfl, ?_⟩
  cases turn with
  | takes event =>
      exact hcourse.accounts (hstart h.accounts) fun peer batch response hreply =>
        absurd hreply (hfits peer batch response)
  | hears handed response =>
      have hreplied := h.accounts.replied hfits n
      by_cases hears : n.Hears handed
      · refine hcourse.accounts (hstart hreplied) fun peer batch found hreply => ?_
        obtain ⟨rfl, -, -⟩ := Event.replicationReply.inj hreply
        exact ⟨hears, rfl⟩
      · obtain rfl : n = n' := by
          have hsame := (handle_of_not_hears hears response).symm.trans hrun
          injection hsame
        exact hstart hreplied.settled

theorem Carries.accounted (h : n.Carries t) : n.Accounted t := by
  induction h with
  | starts hrun =>
      have hnew := (ensures_recover_isNew _ _).ok hrun
      refine ⟨hnew.saved, hnew.effects, ?_⟩
      rw [hnew.peers]
      exact Traffic.accounts_empty fun _ hin => absurd hin List.not_mem_nil
  | goesOn _ turn hfits hrun ih => exact ih.handle hfits hrun

/-- A peer has no more requests outstanding than stray replies, and the one that its
flag stands for. -/
theorem Carries.outstanding_le (h : n.Carries t) {progress : Progress}
    (hpeer : n.peers.get? peer = some progress) :
    t.outstanding peer ≤ t.strays peer + if progress.inFlight then 1 else 0 := by
  obtain ⟨hle, hclear⟩ := h.accounted.accounts.within peer progress hpeer
  cases hflag : progress.inFlight with
  | false => exact hclear (Or.inl hflag)
  | true => exact hle

/-! ## A peer that comes back -/

/-- The leader of three removes a member and adds it again, and then hears what became
of its first request to that member. -/
def rejoiningTurn : ℕ → Traffic.Turn
  | 0 => .takes .campaign
  | 1 => .takes (.voteReply 2 1 ⟨1, true⟩)
  | 2 => .takes (.change 6 (.remove 3))
  | 3 => .hears ⟨2, 1, ⟨1, .append 0 1⟩⟩ (some (.appendEntries ⟨1, true, 1⟩))
  | 4 => .hears ⟨2, 1, ⟨1, .append 1 1⟩⟩ (some (.appendEntries ⟨1, true, 2⟩))
  | 5 => .takes (.change 7 (.add 3))
  | _ => .hears ⟨3, 1, ⟨1, .append 0 1⟩⟩ (some (.appendEntries ⟨1, false, 0⟩))

/-- The node before each of these events, on a disk in memory, with its traffic. -/
def rejoining : ℕ → Node Memory × Traffic
  | 0 => (fresh { members := [1, 2, 3] } ⟨{}, {}⟩, {})
  | k + 1 =>
    let n := (rejoining k).1
    let n' := (outcome (handle (rejoiningTurn k).event) n).2
    ({ n' with effects := [] },
      ((rejoiningTurn k).taken (rejoining k).2 n).causedAll n'.effects)

theorem fits_rejoiningTurn (k : ℕ) (hlt : k < 7) :
    (rejoiningTurn k).Fits (rejoining k).2 := by
  interval_cases k
  · rintro _ _ _ ⟨⟩
  · rintro _ _ _ ⟨⟩
  · rintro _ _ _ ⟨⟩
  · have hpending : (rejoining 3).2.pending =
        [⟨3, 1, ⟨1, .append 0 1⟩⟩, ⟨2, 1, ⟨1, .append 0 1⟩⟩] := by cbv
    change _ ∈ (rejoining 3).2.pending
    rw [hpending]
    exact List.mem_cons_of_mem _ List.mem_cons_self
  · have hpending : (rejoining 4).2.pending =
        [⟨2, 1, ⟨1, .append 1 1⟩⟩, ⟨3, 1, ⟨1, .append 0 1⟩⟩] := by cbv
    change _ ∈ (rejoining 4).2.pending
    rw [hpending]
    exact List.mem_cons_self
  · rintro _ _ _ ⟨⟩
  · have hpending : (rejoining 6).2.pending = [⟨3, 2, ⟨1, .append 3 0⟩⟩,
        ⟨2, 1, ⟨1, .append 2 1⟩⟩, ⟨3, 1, ⟨1, .append 0 1⟩⟩] := by cbv
    change _ ∈ (rejoining 6).2.pending
    rw [hpending]
    exact List.mem_cons_of_mem _ (List.mem_cons_of_mem _ List.mem_cons_self)

/-- The node is started over an empty disk. -/
theorem recover_rejoining :
    recover { members := [1, 2, 3] } ⟨{}, {}⟩ = .ok (rejoining 0).1 ⟨{}, {}⟩ := rfl

theorem goesOn_rejoining (k : ℕ) (hlt : k < 7) :
    (outcome (handle (rejoiningTurn k).event) (rejoining k).1).1 = .ok () := by
  interval_cases k
  all_goals cbv

theorem carries_rejoining (k : ℕ) (hle : k ≤ 7) :
    (rejoining k).1.Carries (rejoining k).2 := by
  induction k with
  | zero => exact .starts recover_rejoining
  | succ k ih =>
      exact (ih (by omega)).goesOn (rejoiningTurn k) (fits_rejoiningTurn k hle)
        (eq_ok_of_outcome (goesOn_rejoining k hle))

/-- The new replicator of the peer has two requests after one stray reply. -/
theorem outstanding_rejoining : ((rejoining 7).1.peers.get? 3).isSome = true ∧
    (rejoining 7).2.strays 3 = 1 ∧ (rejoining 7).2.outstanding 3 = 2 := by
  refine ⟨?_, ?_, ?_⟩
  all_goals cbv

/-- The replicator of a peer has at most one request outstanding if no stray reply has
counted since it was started.  One such reply is enough for two requests. -/
theorem outstanding_le_one_iff (limit : ℕ) :
    (∀ (σ : Type) [Storage σ] (n : Node σ) (t : Traffic), n.Carries t →
      ∀ peer, (n.peers.get? peer).isSome = true → t.strays peer ≤ limit →
        t.outstanding peer ≤ 1) ↔ limit = 0 := by
  constructor
  · intro hall
    obtain ⟨hpeer, hstrays, htwo⟩ := outstanding_rejoining
    have hone := hall Memory _ _ (carries_rejoining 7 le_rfl) 3 hpeer
    omega
  · rintro rfl σ _ n t hcarries peer hpeer hnone
    obtain ⟨progress, hprogress⟩ := Option.isSome_iff_exists.mp hpeer
    have hle := hcarries.outstanding_le hprogress
    split at hle <;> omega

end Node

end Consensus
