import Consensus.Proofs.Node.InWords
import Consensus.Proofs.Node.Unfailing
import Consensus.Proofs.World.Recovery

/-!
# A node and its disk agree

Log, indices, stored term and vote, and stored snapshot of a node are tied to each
other, and stay so through all that a node may go through: entries of leaders that cut
its log, snapshots that replace it, changes of members, compactions, stops, and writes
that fail.

So nothing that a node looks up is ever missing.  As long as its disk takes what is
written, it gets through every event that suits it, and starts again after every stop.
-/

namespace Consensus

open Storage (Faithful)

/-- A stored snapshot covers at least one entry. -/
def Stored.Marked (s : Stored) : Prop :=
  ∀ snapshot, s.snapshot = some snapshot → 0 < snapshot.index

namespace Fallible

/-- No write to the disk is to fail. -/
def Sturdy (disk : Fallible) : Prop := false ∉ disk.verdicts

theorem Sturdy.write {disk : Fallible} (h : disk.Sturdy) (change : Stored → Stored) :
    Ensures (Fallible.write change) disk (fun _ => Sturdy) fun _ => False := by
  obtain ⟨stored, verdicts⟩ := disk
  cases verdicts with
  | nil => exact h
  | cons verdict verdicts =>
      have hrest : false ∉ verdicts := fun hin => h (List.mem_cons_of_mem _ hin)
      cases verdict with
      | true => exact hrest
      | false => exact h List.mem_cons_self

theorem works_sturdy : Storage.Works Sturdy where
  entries := {
    append := fun _ _ h => h.write _
    truncateFrom := fun _ _ h => h.write _
    compactTo := fun _ _ h => h.write _ }
  saveHardState _ _ h := h.write _
  saveSnapshot _ _ h := h.write _

end Fallible

namespace Node

section

variable {σ : Type} [Storage σ] [Faithful σ] {n n' : Node σ} {event : Event}
  {disk : σ}

/-! ## Snapshots cover something -/

theorem EntriesOnly.marked {d d' : σ} (hsame : EntriesOnly d d')
    (h : (Faithful.stored d).Marked) : (Faithful.stored d').Marked := by
  unfold Stored.Marked
  rw [hsame.snapshot]
  exact h

theorem marked_saveSnapshot {snapshot : Snapshot} {d d' : σ}
    (hpos : 0 < snapshot.index)
    (hsaved : Storage.saveSnapshot snapshot d = .ok () d') :
    (Faithful.stored d').Marked := by
  have hdisk := (Faithful.saveSnapshot snapshot d).ok hsaved
  intro found hfound
  rw [hdisk] at hfound
  exact Option.some.inj hfound ▸ hpos

theorem Opens.marked (hopens : Opens event n n')
    (h : (Faithful.stored n.disk).Marked) : (Faithful.stored n'.disk).Marked := by
  have happended : ∀ {term index : ℕ} {payload : Payload} {j : Journal σ},
      Journal.append term payload n.toJournal = .ok index j →
        (Faithful.stored j.disk).Marked := by
    intro term index payload j hrun
    exact EntriesOnly.marked ((Journal.spares_append _ _ _).ok hrun) h
  cases hopens with
  | turned hturns hstores =>
      rw [disk_turned]
      unfold Stored.Marked
      rw [hstores.snapshot]
      exact h
  | crowned =>
      rw [n.aside_crowned.disk]
      exact h
  | noted hevent hrole hrun => exact happended hrun
  | accepted hevent hrole hrun => exact happended hrun
  | proposed hevent hrole hpending hchanges hrun => exact happended hrun
  | merged htakes hrun =>
      exact EntriesOnly.marked ((Journal.spares_appendFromLeader _ _ _).ok hrun) h
  | rebased hadmits hsaved hrun hrestored =>
      have hpos := Nat.zero_lt_of_lt hadmits.new
      exact EntriesOnly.marked ((Journal.spares_rebase _ _ _).ok hrun)
        (marked_saveSnapshot hpos hsaved)
  | waited => exact h
  | counted => exact h
  | refreshed => exact h
  | recorded => exact h

theorem Closes.marked (hcloses : Closes event n n')
    (h : (Faithful.stored n.disk).Marked) : (Faithful.stored n'.disk).Marked := by
  rcases hcloses.journal_or_compacts with hsame | ⟨term, disk, hlong, hsaved, hrun⟩
  · rw [congrArg Journal.disk hsame]
    exact h
  · have hpos := Nat.zero_lt_of_lt hlong.new
    exact EntriesOnly.marked ((Journal.spares_compactTo _ _ _).ok hrun)
      (marked_saveSnapshot hpos hsaved)

/-- A deed that fails stores no snapshot of nothing. -/
theorem Breaks.marked (hbreaks : n.Breaks event disk)
    (h : (Faithful.stored n.disk).Marked) : (Faithful.stored disk).Marked := by
  have hsame : ∀ {d : σ}, Faithful.stored d = Faithful.stored n.disk →
      (Faithful.stored d).Marked := fun hd => hd ▸ h
  cases hbreaks with
  | turning hturns hchanged hrun =>
      exact hsame ((Faithful.saveHardState _ n.disk).error hrun)
  | appending hrole hrun =>
      exact EntriesOnly.marked ((Journal.spares_append _ _ _).error hrun) h
  | merging htakes hrun =>
      exact EntriesOnly.marked ((Journal.spares_appendFromLeader _ _ _).error hrun)
        h
  | receiving hadmits hrun =>
      exact hsame ((Faithful.saveSnapshot _ n.disk).error hrun)
  | rebasing hadmits hsaved hrun =>
      exact EntriesOnly.marked ((Journal.spares_rebase _ _ _).error hrun)
        (marked_saveSnapshot (Nat.zero_lt_of_lt hadmits.new) hsaved)
  | restoring hadmits hsaved hrun hrestored =>
      exact EntriesOnly.marked ((Journal.spares_rebase _ _ _).ok hrun)
        (marked_saveSnapshot (Nat.zero_lt_of_lt hadmits.new) hsaved)
  | saving hlong hrun =>
      exact hsame ((Faithful.saveSnapshot _ n.disk).error hrun)
  | compacting hlong hsaved hrun =>
      exact EntriesOnly.marked ((Journal.spares_compactTo _ _ _).error hrun)
        (marked_saveSnapshot (Nat.zero_lt_of_lt hlong.new) hsaved)
  | applying => exact h
  | measuring => exact h
  | sending => exact h

theorem Course.marked (hcourse : Course event n n')
    (h : (Faithful.stored n.disk).Marked) : (Faithful.stored n'.disk).Marked :=
  hcourse.keeps (I := fun m => (Faithful.stored m.disk).Marked)
    (fun _ _ hopens => hopens.marked)
    (fun _ _ hcommits hm => hcommits.disk_eq ▸ hm)
    (fun _ _ hcloses => hcloses.marked) h

end

/-! ## Between events -/

variable {n m : Node Fallible} {event : Event} {settings : Settings}

/-- A node that waits for its next event: nothing is left to apply, no peer is offered
an entry before the first, and the stored snapshot covers something. -/
structure Poised (n : Node Fallible) : Prop where
  idle : n.Idle
  offers : n.Offers
  marked : n.disk.stored.Marked

theorem poised_of_recover {d d' : Durable Fallible}
    (hrun : recover settings d = .ok n d') (hmarked : d.disk.stored.Marked) :
    n.Poised := by
  have hresumes := (ensures_recover settings d).ok hrun
  have hnew := (ensures_recover_isNew settings d).ok hrun
  have hdisk : n.disk.stored = { d.disk.stored with entries := n.log.entries } :=
    hresumes.disk
  constructor
  · unfold Idle
    rw [hresumes.standing]
    exact le_rfl
  · unfold Offers
    rw [hnew.peers]
    exact Table.every_empty
  · unfold Stored.Marked
    rw [hdisk]
    exact hmarked

theorem Poised.handled (h : n.Poised) (hsaved : n.Saved)
    (hrun : handle event n = .ok () m) : Poised { m with effects := [] } := by
  have hcourse := (handle_runs hsaved event).ok hrun
  constructor
  · have hidle : m.Idle := (endsIdle_handle h.idle event).ok hrun
    exact hidle
  · exact hcourse.offers h.offers
  · exact hcourse.marked h.marked

theorem Reached.poised (h : Reached n) : n.Poised := by
  induction h with
  | started hfresh hrun =>
      have hnone : Stored.Marked {} := fun _ hnone => absurd hnone (by simp)
      exact poised_of_recover hrun hnone
  | handled hn hsuits hrun ih => exact ih.handled hn.fit.saved hrun
  | restarted hn hreplaces hrun ih => exact poised_of_recover hrun ih.marked
  | resumed hn hsuits hfailed hwhole hreplaces hrun ih =>
      obtain ⟨k, hcourse, hfails⟩ := (handle_runs hn.fit.saved _).error hfailed
      exact poised_of_recover hrun (hfails.breaks.marked (hcourse.marked ih.marked))

/-! ## What always holds -/

/-- Log, indices, term, vote and snapshot fit together, in memory and on the disk. -/
structure Consistent (n : Node Fallible) : Prop where
  numbered : NumberedFrom n.log.snapshotIndex n.log.entries
  rising : Rising n.log.snapshotTerm n.log.entries
  boundary_le : n.log.snapshotIndex ≤ n.standing.lastApplied
  applied_eq : n.standing.lastApplied = n.standing.commitIndex
  commit_le : n.standing.commitIndex ≤ n.log.lastIndex
  lastTerm_le : n.log.lastTerm ≤ n.standing.currentTerm
  hardState : n.disk.stored.hardState = n.standing.hardState
  persisted : n.persisted = n.standing.hardState
  entries : n.disk.stored.entries = n.log.entries
  snapshot_none : n.disk.stored.snapshot = none ↔ n.log.snapshotIndex = 0
  snapshot_some : ∀ snapshot, n.disk.stored.snapshot = some snapshot →
    snapshot.index = n.log.snapshotIndex ∧ snapshot.term = n.log.snapshotTerm

theorem Fit.consistent_of_poised (hn : n.Fit) (hpoised : n.Poised) : n.Consistent := by
  have happlied := le_antisymm hn.applied_le hpoised.idle
  have hboundary : n.disk.stored.boundary = n.log.snapshotIndex := hn.boundary
  have hterm : n.disk.stored.boundaryTerm = n.log.snapshotTerm := hn.boundaryTerm
  constructor
  · exact hn.sound.numbered
  · exact hn.sound.rising
  · exact hn.boundary_le
  · exact happlied
  · rw [← happlied]
    exact hn.applied_le_last
  · exact Log.lastTerm_le hn.within
  · exact hn.hard
  · exact hn.saved
  · exact hn.mirrored
  · constructor
    · intro hnone
      rw [← hboundary, Stored.boundary, hnone]
      rfl
    · intro hzero
      cases hsnapshot : n.disk.stored.snapshot with
      | none => rfl
      | some snapshot =>
          have hindex := (Stored.boundary_of_snapshot hsnapshot).1
          have hpos := hpoised.marked snapshot hsnapshot
          omega
  · intro snapshot hsnapshot
    obtain ⟨hindex, hends⟩ := Stored.boundary_of_snapshot hsnapshot
    exact ⟨hindex.symm.trans hboundary, hends.symm.trans hterm⟩

theorem Reached.isConsistent (hn : n.Reached) : n.Consistent :=
  hn.fit.consistent_of_poised hn.poised

/-- The stored log is the one in memory, and the consumer has got no further. -/
theorem Reached.exists_same_log (hn : n.Reached) {recorder : Recorder}
    (hvalid : settings.validate = .ok ()) (hreplaces : recorder.Replaces n.recorder)
    (hword : n.log.snapshotIndex < wordBound) :
    ∃ (m : Node Fallible) (d : Durable Fallible),
      recover settings ⟨⟨n.disk.stored, []⟩, recorder⟩ = .ok m d ∧ m.log = n.log := by
  have hfit := hn.fit
  have hstored : n.disk.stored.log = n.log := hfit.log_stored
  have hreach : recorder.lastApplied ≤ n.disk.stored.log.lastIndex := by
    rw [hstored]
    exact (lastApplied_le (hreplaces.imp_left And.left) hfit.record).trans
      hfit.applied_le_last
  have hmay : MayStart settings
      (⟨⟨n.disk.stored, []⟩, recorder⟩ : Durable Fallible) := by
    refine ⟨hvalid, hfit.sane, hreach, fun snapshot hsnapshot => ?_⟩
    rw [(hn.isConsistent.snapshot_some snapshot hsnapshot).1]
    exact hword
  obtain ⟨m, d, hrun, hresumes⟩ := exists_recover hmay
  have hlog : m.log = n.disk.stored.log := hresumes.log
  exact ⟨m, d, hrun, hlog.trans hstored⟩

theorem Reached.along [Counting] (h : Reached n) {event : ℕ → Event} {k : ℕ}
    (hstep : ∀ j < k, (event j).Suits (n.along event j) ∧
      (outcome (handle (event j)) (n.along event j)).1 = .ok ()) :
    Reached (n.along event k) := by
  refine keeps_along h fun j hlt hn => ?_
  obtain ⟨hsuits, hwell⟩ := hstep j hlt
  exact hn.handled hsuits (eq_ok_of_outcome hwell)

/-! ## Counting in words -/

/-- The node is one that began on an empty disk, and has handled what suited it since,
with any number of stops and of writes that failed.  It counts in words, and had room
for each event. -/
inductive ReachedInWords : Node Fallible → Prop
  | started {settings : Settings} {recorder : Recorder} {verdicts : List Bool}
      {d : Durable Fallible} {n : Node Fallible} (hfresh : recorder.record = {})
      (hrun : @recover Fallible _ .words settings ⟨⟨{}, verdicts⟩, recorder⟩ = .ok n d)
      (hbelow : n.log.Below (wordBound - 1)) : ReachedInWords n
  | handled {event : Event} {n n' : Node Fallible} (hn : ReachedInWords n)
      (hsuits : event.Suits n) (hroom : n.HasRoom event)
      (hrun : @handle Fallible _ .words event n = .ok () n') :
      ReachedInWords { n' with effects := [] }
  | restarted {settings : Settings} {recorder : Recorder}
      {verdicts : List Bool} {d : Durable Fallible} {n m : Node Fallible}
      (hn : ReachedInWords n) (hreplaces : recorder.Replaces n.recorder)
      (hrun : @recover Fallible _ .words settings ⟨⟨n.disk.stored, verdicts⟩, recorder⟩ =
        .ok m d)
      (hbelow : m.log.Below (wordBound - 1)) : ReachedInWords m
  | resumed {settings : Settings} {recorder : Recorder} {verdicts : List Bool}
      {d : Durable Fallible} {event : Event} {e : Error}
      {n n' m : Node Fallible} (hn : ReachedInWords n) (hsuits : event.Suits n)
      (hroom : n.HasRoom event)
      (hfailed : @handle Fallible _ .words event n = .error e n')
      (hwhole : ¬ n'.disk.stored.Torn event n.log)
      (hreplaces : recorder.Replaces n'.recorder)
      (hrun : @recover Fallible _ .words settings ⟨⟨n'.disk.stored, verdicts⟩, recorder⟩ =
        .ok m d)
      (hbelow : m.log.Below (wordBound - 1)) : ReachedInWords m

theorem ReachedInWords.reached (h : n.ReachedInWords) : n.Reached := by
  induction h with
  | started hfresh hrun hbelow =>
      exact .started hfresh ((recover_words_iff hbelow).mp hrun)
  | handled hn hsuits hroom hrun ih =>
      exact ih.handled hsuits (hroom.handle_words.symm.trans hrun)
  | restarted hn hreplaces hrun hbelow ih =>
      exact ih.restarted hreplaces ((recover_words_iff hbelow).mp hrun)
  | resumed hn hsuits hroom hfailed hwhole hreplaces hrun hbelow ih =>
      exact ih.resumed hsuits (hroom.handle_words.symm.trans hfailed) hwhole hreplaces
        ((recover_words_iff hbelow).mp hrun)

/-- The index after the last one is always a word. -/
theorem ReachedInWords.below_log (h : n.ReachedInWords) : n.log.Below (wordBound - 1) := by
  cases h with
  | started hfresh hrun hbelow => exact hbelow
  | handled hn hsuits hroom hrun => exact (hroom.below_handled hrun).log
  | restarted hn hreplaces hrun hbelow => exact hbelow
  | resumed hn hsuits hroom hfailed hwhole hreplaces hrun hbelow => exact hbelow

theorem reachedInWords_oneOfThree :
    (oneOfThree 1 (some 2) firstRequest.entries []).ReachedInWords := by
  have hstart : @recover Fallible _ .words { members := [1, 2, 3] } ⟨⟨{}, []⟩, {}⟩ =
      .ok (oneOfThree 0 none [] []) ⟨⟨{}, []⟩, {}⟩ := rfl
  have hroom : (oneOfThree 0 none [] []).HasRoom (.appendRequest 0 firstRequest) :=
    ⟨by simp, below_of_values (by decide), by decide⟩
  have hsuits : Event.Suits (.appendRequest 0 firstRequest) (oneOfThree 0 none [] []) :=
    suits_firstRequest []
  exact .handled (.started rfl hstart (by decide)) hsuits hroom rfl

theorem suits_overflowTurn {k : ℕ} (hlt : k < 3) : (overflowTurn k).Suits n := by
  interval_cases k
  · exact ⟨by decide, by decide, {}, Record.below_empty _, rfl⟩
  · trivial
  · trivial

end Node

end Consensus
