import Mathlib
import Consensus.Proofs.Compaction
import Consensus.Proofs.Node.Heeding
import Consensus.Proofs.Node.Idle

/-!
# Requests of a past term

A request of a term that is over is refused, and the node goes on as if it had not come.
For a vote and for a snapshot there is nothing more to it.  A request for entries is
followed by what follows every such request: the pending change is read off the log
again, what is committed is applied, and a log that is too long is compacted.  In a node
that runs the pending change is known already, and nothing is left to apply.  The log
can be too long, however, since a leader does not compact when it adds to its log but
only when it applies.  Then the refused request lets it compact.
-/

namespace Consensus

open Storage (Faithful)

/-- The term of a request that another node sends. -/
def Event.requestTerm? : Event → Option ℕ
  | .voteRequest _ request => some request.term
  | .appendRequest _ request => some request.term
  | .installRequest _ request => some request.term
  | _ => none

/-- The request is one for entries. -/
def Event.SendsEntries : Event → Prop
  | .appendRequest _ _ => True
  | _ => False

namespace Node

variable {σ : Type} {n n' : Node σ} {event : Event} {settings : Settings}

/-- The request was sent in a term that is over. -/
def IsPast (n : Node σ) (event : Event) : Prop :=
  ∃ term ∈ event.requestTerm?, term < n.standing.currentTerm

/-- The answer of a node to a request that it refuses: its own term, and no.  To a
request for entries it adds where its log ends, having told how far that is applied. -/
def refusal (n : Node σ) : Event → List Effect
  | .voteRequest ticket _ => [.answer ticket (.vote ⟨n.standing.currentTerm, false⟩)]
  | .appendRequest ticket _ => [.announce n.standing.lastApplied,
      .answer ticket (.append ⟨n.standing.currentTerm, false, n.log.lastIndex⟩)]
  | .installRequest ticket _ =>
      [.answer ticket (.install ⟨n.standing.currentTerm, false⟩)]
  | _ => []

/-- The node has refused a request, and is otherwise what it was. -/
def refusing (n : Node σ) (event : Event) : Node σ := n.emitAll (n.refusal event)

variable [Storage σ]

/-! ## Votes and snapshots -/

theorem ensures_voteRequest_of_lt (hn : n.Saved) (ticket : ℕ) {request : VoteRequest}
    (hlt : request.term < n.standing.currentTerm) :
    Ensures (handle (.voteRequest ticket request)) n
      (fun _ m => m = n.refusing (.voteRequest ticket request)) fun _ => False := by
  have hanswer : n.standing.answerVote n.log request =
      (⟨n.standing.currentTerm, false⟩, n.standing) := by
    unfold Standing.answerVote
    rw [observeTerm_of_le hlt.le]
    exact if_pos hlt
  unfold handle handleVoteRequest
  simp only [bind_assoc]
  rw [Ensures.get_bind_iff, hanswer]
  dsimp only
  rw [Ensures.set_bind_iff]
  refine Ensures.bind_of_ok (persist_of_saved hn) ?_
  rw [Ensures.modify_bind_iff, afterRoleChange_self]
  rfl

theorem ensures_installRequest_of_lt (ticket : ℕ) {request : InstallRequest}
    (hlt : request.term < n.standing.currentTerm) :
    Ensures (handle (.installRequest ticket request)) n
      (fun _ m => m = n.refusing (.installRequest ticket request)) fun _ => False := by
  unfold handle handleInstallRequest
  simp only [bind_assoc, ite_bind]
  rw [Ensures.get_bind_iff]
  exact Ensures.ite (fun _ => rfl) fun hle => absurd hlt hle

/-! ## Entries -/

/-- Where the pending change is known and nothing is left to apply, a request for entries
that is refused comes down to a compaction. -/
theorem ensures_appendRequest_of_lt (hn : n.Saved) (hidle : n.Idle)
    (hrefreshed : refreshed n = n) (ticket : ℕ) {request : AppendRequest}
    (hlt : request.term < n.standing.currentTerm) {Q E : Node σ → Prop}
    (hcompact : Ensures compactIfLong (n.emit (.announce n.standing.lastApplied))
      (fun _ m => Q (m.emit (.answer ticket
        (.append ⟨n.standing.currentTerm, false, n.log.lastIndex⟩)))) E) :
    Ensures (handle (.appendRequest ticket request)) n (fun _ => Q) E := by
  have hstale : request.term < (n.standing.observeTerm request.term).currentTerm := by
    rwa [observeTerm_of_le hlt.le]
  have hanswer : Ensures (onReplica (Replica.answerAppend request)) n
      (fun answer m => answer = ⟨n.standing.currentTerm, false, n.log.lastIndex⟩ ∧ m = n)
      fun _ => False := by
    refine Ensures.onPart ((Replica.answerAppend_of_stale
      (r := n.toReplica) hstale).mono ?_ fun _ he => he)
    rintro - - ⟨rfl, rfl⟩
    rw [observeTerm_of_le hlt.le]
    exact ⟨rfl, rfl⟩
  rw [handle_appendRequest_eq, Ensures.get_bind_iff, if_neg (not_lt.mpr hlt.le),
    Ensures.pure_bind_iff]
  refine Ensures.andThen_of_succeeds hanswer fun answer m hm => ?_
  rw [hm.1, hm.2]
  unfold concludeAppend applyCommitted
  refine Ensures.bind_of_ok (persist_of_saved hn) ?_
  rw [Ensures.modify_bind_iff, afterRoleChange_self]
  refine Ensures.ite (fun hle => absurd hlt hle.not_gt) fun _ => ?_
  rw [Ensures.modify_bind_iff, hrefreshed, bind_assoc, Ensures.get_bind_iff,
    Nat.sub_eq_zero_of_le hidle]
  exact hcompact.andThen fun _ _ hm => hm

/-! ## Compaction -/

/-- The snapshot of what is applied, which ends in the term, is on the disk, and what it
covers is gone from the log.  Nothing else has changed. -/
structure Compacted [Faithful σ] (n : Node σ) (term : ℕ) (n' : Node σ) : Prop where
  log : n'.log = n.log.dropThrough n.standing.lastApplied term
  disk : Faithful.stored n'.disk =
    { (Faithful.stored n.disk).drop n.standing.lastApplied with
      snapshot := some (n.ownSnapshot term) }
  rest : n' = { n with toJournal := n'.toJournal }

omit [Storage σ] in
/-- A log that is due to be compacted has a term where its applied part ends. -/
theorem Level.overflows (hlevel : n.Level)
    (hlong : n.settings.compactionThreshold < n.log.size)
    (hnew : n.log.snapshotIndex < n.standing.lastApplied) :
    ∃ term, n.Overflows term := by
  obtain ⟨entry, hentry⟩ := hlevel.gapless.exists_get? hnew hlevel.applied_le_last
  refine ⟨entry.term, hlong, hnew, ?_⟩
  rw [Log.termAt?_eq_get? hnew, hentry]
  rfl

theorem Level.compactIfLong_eq (hlevel : n.Level) (hshort : ¬ ∃ term, n.Overflows term) :
    Ensures compactIfLong n (fun _ m => m = n) fun _ => False := by
  unfold compactIfLong
  rw [Ensures.get_bind_iff]
  refine Ensures.ite (fun _ => rfl) fun hdue => ?_
  obtain ⟨hlong, hnew⟩ := not_or.mp hdue
  exact absurd (hlevel.overflows (not_le.mp hlong) (not_le.mp hnew)) hshort

theorem Overflows.ensures_compactIfLong [Faithful σ] {term : ℕ} (h : n.Overflows term) :
    Ensures compactIfLong n (fun _ m => n.Compacted term m) fun _ => True := by
  unfold compactIfLong
  rw [Ensures.get_bind_iff]
  refine Ensures.ite (fun hshort => ?_) fun _ => ?_
  · have hlong := h.long
    have hnew := h.new
    omega
  · rw [h.term]
    refine Ensures.bind (Ensures.onDisk (fun _ disk hsaved => ?_) fun _ _ _ => trivial)
    refine Ensures.onJournal (fun _ j hrun => ?_) fun _ _ _ => trivial
    obtain ⟨hlog, hdisk⟩ := (Journal.ensures_compactTo ⟨n.log, disk⟩ h.new term).ok hrun
    refine ⟨hlog, ?_, rfl⟩
    change Faithful.stored j.disk = _
    rw [hdisk, (Faithful.saveSnapshot _ n.disk).ok hsaved]
    rfl

/-! ## Nodes that run -/

variable [Faithful σ]

/-- A refused request changes nothing, but if it sends entries the log must not be due
to be compacted. -/
theorem Running.handle_past (h : Running settings n) (hpast : n.IsPast event)
    (hshort : ¬ (event.SendsEntries ∧ ∃ term, n.Overflows term)) :
    handle event n = .ok () (n.refusing event) := by
  have hsaved := h.dutiful.2
  apply Ensures.eq_ok
  obtain ⟨term, hterm, hlt⟩ := hpast
  cases event with
  | voteRequest ticket request =>
      obtain rfl := Option.some.inj hterm
      exact (ensures_voteRequest_of_lt hsaved ticket hlt).imp fun _ _ hm => ⟨rfl, hm⟩
  | appendRequest ticket request =>
      obtain rfl := Option.some.inj hterm
      obtain ⟨hlevel, hheeds⟩ := h.dutiful.1
      have hannounced : (n.emit (.announce n.standing.lastApplied)).Level :=
        hlevel.of_same rfl rfl rfl
      have hsame : ¬ ∃ term, (n.emit (.announce n.standing.lastApplied)).Overflows term :=
        fun ⟨term, hlong⟩ => hshort ⟨trivial, term, hlong.long, hlong.new, hlong.term⟩
      apply ensures_appendRequest_of_lt hsaved h.idle hheeds.refreshed_eq ticket hlt
        (Q := fun m => () = () ∧ m = n.refusing _)
      refine (hannounced.compactIfLong_eq hsame).imp ?_
      rintro _ m rfl
      refine ⟨rfl, ?_⟩
      unfold refusing refusal emitAll emit
      rw [List.append_assoc]
      rfl
  | installRequest ticket request =>
      obtain rfl := Option.some.inj hterm
      exact (ensures_installRequest_of_lt ticket hlt).imp fun _ _ hm => ⟨rfl, hm⟩
  | _ => exact absurd hterm (by simp [Event.requestTerm?])

/-- A request for entries that finds a log due to be compacted is refused as well, but
the log is compacted. -/
theorem Running.compacts_past (h : Running settings n) (hpast : n.IsPast event)
    (hentries : event.SendsEntries) {term : ℕ} (hlong : n.Overflows term) :
    Ensures (handle event) n (fun _ n' => (n.refusing event).Compacted term n')
      fun _ => True := by
  obtain ⟨requestTerm, hterm, hlt⟩ := hpast
  cases event with
  | appendRequest ticket request =>
      obtain rfl := Option.some.inj hterm
      obtain ⟨⟨-, hheeds⟩, hsaved⟩ := h.dutiful
      have hannounced : (n.emit (.announce n.standing.lastApplied)).Overflows term :=
        ⟨hlong.long, hlong.new, hlong.term⟩
      refine ensures_appendRequest_of_lt hsaved h.idle hheeds.refreshed_eq ticket hlt
        (hannounced.ensures_compactIfLong.imp fun _ m hm => ⟨hm.log, hm.disk, ?_⟩)
      rw [hm.rest]
      unfold refusing refusal emitAll emit
      rw [List.append_assoc]
      rfl
  | _ => exact hentries.elim

/-- A request of a past term is refused with the node's own term.  Nothing else changes,
unless the request sends entries while the log is due to be compacted: then it is
compacted, and if that works there is no other change. -/
theorem Running.refuses (h : Running settings n) (hpast : n.IsPast event) :
    (handle event n = .ok () (n.refusing event) ↔
      ¬ (event.SendsEntries ∧ ∃ term, n.Overflows term)) ∧
    ∀ term, event.SendsEntries → n.Overflows term →
      Ensures (handle event) n (fun _ n' => (n.refusing event).Compacted term n')
        fun _ => True := by
  refine ⟨⟨?_, h.handle_past hpast⟩, fun _ hentries hlong =>
    h.compacts_past hpast hentries hlong⟩
  rintro hrun ⟨hentries, term, hlong⟩
  have hcompacted := (h.compacts_past hpast hentries hlong).ok hrun
  have hboundary : n.log.snapshotIndex = n.standing.lastApplied :=
    congrArg Log.snapshotIndex hcompacted.log
  exact hlong.new.ne hboundary

/-! ## A leader with a long log -/

/-- A node fails to be elected, and leads the term after.  Its first entry is committed,
the second one is not. -/
def strainedTurn : ℕ → Event
  | 0 => .campaign
  | 1 => .campaign
  | 2 => .voteReply 2 2 ⟨2, true⟩
  | 3 => .replicationReply 2 ⟨2, .append 0 1⟩ (some (.appendEntries ⟨2, true, 1⟩))
  | _ => .command 7 [1]

/-- The node before each of these events.  It keeps one entry only if it need not keep
more. -/
def strained : ℕ → Node Memory :=
  (fresh { members := [1, 2, 3], compactionThreshold := 1 } ⟨{}, {}⟩).along strainedTurn

theorem running_strained (k : ℕ) (hle : k ≤ 5) :
    Running (strained 0).settings (strained k) := by
  have hstart : recover (strained 0).settings ⟨({} : Memory), {}⟩ =
      .ok (strained 0) ⟨{}, {}⟩ := rfl
  refine (Running.started hstart).along fun j hlt => ⟨?_, ?_⟩
  · unfold strainedTurn
    split <;> trivial
  · have hlt : j < 5 := hlt.trans_le hle
    interval_cases j
    all_goals cbv

theorem standing_strained : (strained 5).standing =
    { currentTerm := 2, votedFor := some 1, commitIndex := 1, lastApplied := 1,
      role := .leader, leader := some 1, votes := ∅ } := by cbv

theorem log_strained : (strained 5).log =
    ⟨[⟨2, 1, .noop⟩, ⟨2, 2, .command [1]⟩], 0, 0⟩ := by cbv

theorem overflows_strained : (strained 5).Overflows 2 := by
  have hsettings := (running_strained 5 le_rfl).dutiful.1.heeds.settings
  constructor
  · rw [hsettings, log_strained]
    decide
  · rw [log_strained, standing_strained]
    decide
  · rw [log_strained, standing_strained]
    rfl

/-- A candidate of the first term is refused and changes nothing.  A leader of that term
is refused too, but the log begins after the first entry then. -/
theorem refuses_strained :
    handle (.voteRequest 8 ⟨1, 3, 0, 0⟩) (strained 5) =
      .ok () ((strained 5).refusing (.voteRequest 8 ⟨1, 3, 0, 0⟩)) ∧
    ∃ n', handle (.appendRequest 9 ⟨1, 3, 0, 0, [], 0⟩) (strained 5) = .ok () n' ∧
      n' ≠ (strained 5).refusing (.appendRequest 9 ⟨1, 3, 0, 0, [], 0⟩) ∧
      n'.log = ⟨[⟨2, 2, .command [1]⟩], 1, 2⟩ := by
  have hrunning := running_strained 5 le_rfl
  have hlt : 1 < (strained 5).standing.currentTerm := by
    rw [standing_strained]
    decide
  have hvote : (strained 5).IsPast (.voteRequest 8 ⟨1, 3, 0, 0⟩) := ⟨1, rfl, hlt⟩
  have hentries : (strained 5).IsPast (.appendRequest 9 ⟨1, 3, 0, 0, [], 0⟩) :=
    ⟨1, rfl, hlt⟩
  have hwell : (outcome (handle (.appendRequest 9 ⟨1, 3, 0, 0, [], 0⟩))
      (strained 5)).1 = .ok () := by cbv
  obtain ⟨hiff, hcompacts⟩ := hrunning.refuses hentries
  have hrun := eq_ok_of_outcome hwell
  have hcompacted := (hcompacts 2 trivial overflows_strained).ok hrun
  refine ⟨(hrunning.refuses hvote).1.mpr fun h => h.1, _, hrun, fun hsame => ?_, ?_⟩
  · rw [hsame] at hrun
    exact hiff.mp hrun ⟨trivial, 2, overflows_strained⟩
  · rw [hcompacted.log]
    change (strained 5).log.dropThrough (strained 5).standing.lastApplied 2 = _
    rw [log_strained, standing_strained]
    rfl

end Node

end Consensus
