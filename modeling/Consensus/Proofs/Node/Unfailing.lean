import Consensus.Proofs.LogAgreement
import Consensus.Proofs.Node.Answering
import Consensus.Proofs.Node.Fitness
import Consensus.Proofs.Node.Idle
import Consensus.Proofs.Node.Peering

/-!
# Nodes that cannot fail

If every write on its disk works, a fit node gets through any event that suits it.
Whatever it looks up is there: what is committed is in the log, so the next entry to
be applied is; every peer is offered an entry that comes after the first boundary, so
where that is compacted the snapshot is on the disk; and a snapshot that was written
by a consumer can be read.
-/

namespace Consensus

namespace Node

variable {σ : Type} {n n' : Node σ} {event : Event}

/-! ## Peers -/

/-- Every peer is offered an entry: none comes before the first. -/
def Offers (n : Node σ) : Prop := n.peers.Every fun p => 0 < p.nextIndex

theorem lasting_offered : Lasting fun p => 0 < p.nextIndex where
  start lastIndex := Nat.succ_pos lastIndex
  marked hp := hp
  learns h p hp := by
    cases h with
    | ended => exact hp
    | appended hkind reply =>
        dsimp only
        split
        · exact hp.trans_le (Nat.le_max_left _ _)
        · exact Nat.zero_lt_one.trans_le (Nat.le_max_right _ _)
    | installed => exact hp.trans_le (Nat.le_max_left _ _)

variable [Storage σ]

theorem Course.offers (hcourse : Course event n n') (h : n.Offers) : n'.Offers :=
  lasting_offered.course hcourse h

/-! ## Disks that work -/

omit [Storage σ] in
theorem Commits.disk_eq (hcommits : Commits event n n') : n'.disk = n.disk := by
  cases hcommits with
  | committed => rfl

section

variable {W : σ → Prop} (hworks : Storage.Works W)
include hworks

theorem Opens.works (hopens : Opens event n n') (h : W n.disk) : W n'.disk := by
  cases hopens with
  | turned hturns hstores =>
      rw [disk_turned]
      cases hstores with
      | held => exact h
      | written hchanged hrun => exact (hworks.saveHardState _ _ h).ok hrun
  | crowned =>
      rw [n.aside_crowned.disk]
      exact h
  | noted hevent hrole hrun =>
      exact (Journal.leaves_append hworks.entries _ _ n.toJournal h).ok hrun
  | accepted hevent hrole hrun =>
      exact (Journal.leaves_append hworks.entries _ _ n.toJournal h).ok hrun
  | proposed hevent hrole hpending hchanges hrun =>
      exact (Journal.leaves_append hworks.entries _ _ n.toJournal h).ok hrun
  | merged htakes hrun =>
      exact (Journal.leaves_appendFromLeader hworks.entries _ _ n.toJournal h).ok
        hrun
  | @rebased request disk j recorder hadmits hsaved hrun hrestored =>
      have hdisk : W disk := (hworks.saveSnapshot _ _ h).ok hsaved
      exact (Journal.leaves_rebase hworks.entries _ _ ⟨n.log, disk⟩ hdisk).ok hrun
  | waited => exact h
  | counted => exact h
  | refreshed => exact h
  | recorded => exact h

theorem Closes.works (hcloses : Closes event n n') (h : W n.disk) :
    W n'.disk := by
  rcases hcloses.journal_or_compacts with hsame | ⟨term, disk, -, hsaved, hrun⟩
  · rw [congrArg Journal.disk hsame]
    exact h
  · have hdisk : W disk := (hworks.saveSnapshot _ _ h).ok hsaved
    exact (Journal.leaves_compactTo hworks.entries _ _ ⟨n.log, disk⟩ hdisk).ok hrun

theorem Course.works (hcourse : Course event n n') (h : W n.disk) : W n'.disk :=
  hcourse.keeps (I := fun m => W m.disk) (fun _ _ hopens => hopens.works hworks)
    (fun _ _ hcommits hm => hcommits.disk_eq ▸ hm)
    (fun _ _ hcloses => hcloses.works hworks) h

end

/-! ## Nothing that is missing -/

section

open Storage (Faithful)

variable [Faithful σ] {old : Log}

/-- What is committed is in the log, peers are offered entries, and if the event
brings a snapshot nothing was left to apply when it came. -/
structure Stocked (event : Event) (n : Node σ) : Prop where
  committed : n.standing.commitIndex ≤ n.log.lastIndex
  idle : ∀ ticket request, event = .installRequest ticket request → n.Idle
  offers : n.Offers

omit [Storage σ] [Faithful σ] in
theorem Stocked.of_same (h : Stocked event n) (hlog : n'.log = n.log)
    (hsame : SameIndices n n') (hoffers : n'.Offers) : Stocked event n' where
  committed := by
    rw [hlog, hsame.commit]
    exact h.committed
  idle ticket request hevent := hsame.idle (h.idle ticket request hevent)
  offers := hoffers

/-- Entries of a leader that contradict nothing committed leave it in the log, with
all that was sent. -/
theorem Apt.reach_le (h : Apt event old n) {request : AppendRequest}
    (htakes : n.Takes event request)
    (hcommitted : n.standing.commitIndex ≤ n.log.lastIndex) {reach : ℕ}
    {j : Journal σ}
    (hrun : Journal.appendFromLeader request.prevIndex request.entries
      n.toJournal = .ok reach j) :
    max n.standing.commitIndex reach ≤ j.log.lastIndex := by
  have hsuits := htakes.suits h.suits
  have hgapless := h.fit.sound.gapless
  obtain ⟨kept, early, fresh, hmeets⟩ := hgapless.exists_meets hsuits.numbered
    (hgapless.le_last_of_matchesAt htakes.fits)
  obtain ⟨rfl, hlog⟩ := Journal.log_appendFromLeader hgapless hmeets hrun
  have hkept : n.standing.commitIndex ≤ kept := by
    rcases hmeets.merge with ⟨-, rfl⟩ |
      ⟨-, -, entry, hentry, hindex, term, hterm, hconflict⟩
    · exact hcommitted
    · by_contra hcuts
      exact hconflict (hsuits.agrees entry hentry (by omega) term hterm)
  have hreach := hmeets.reach_le hgapless hsuits.numbered
  have hlast := hgapless.lastIndex_splice hmeets.adjoins
  rw [hlog]
  omega

theorem Opens.stocked (hopens : Opens event n n') (hapt : Apt event old n)
    (h : Stocked event n) : Stocked event n' := by
  have hoffers : n'.Offers := lasting_offered.opens hopens h.offers
  -- a leader that adds to its log does not get a snapshot
  have hpushed : ∀ {payload : Payload} {index : ℕ} {j : Journal σ},
      event.leader? = none →
      Journal.append n.standing.currentTerm payload n.toJournal = .ok index j →
      n'.log = j.log → n'.standing = n.standing → Stocked event n' := by
    intro payload index j hleader hrun hlog hstanding
    obtain ⟨hindex, hpush⟩ := Journal.log_append hrun
    have hadjoins : n.log.Adjoins n.log.lastIndex
        [⟨n.standing.currentTerm, index, payload⟩] :=
      hapt.fit.sound.gapless.adjoins_single hindex
    refine ⟨?_, ?_, hoffers⟩
    · rw [hlog, hstanding, hpush, hapt.fit.sound.gapless.push_eq,
        hapt.fit.sound.gapless.lastIndex_splice hadjoins]
      exact h.committed.trans (Nat.le_add_right _ _)
    · rintro ticket request rfl
      exact absurd hleader (by simp [Event.leader?])
  cases hopens with
  | turned hturns hstores =>
      obtain ⟨hcommit, happlied⟩ := hturns.indices
      refine h.of_same (log_turned _ _ _) ⟨?_, ?_⟩ hoffers
      · rw [standing_turned, hcommit]
      · rw [standing_turned, happlied]
  | waited => exact h.of_same rfl ⟨rfl, rfl⟩ hoffers
  | counted => exact h.of_same rfl ⟨rfl, rfl⟩ hoffers
  | crowned =>
      refine h.of_same n.aside_crowned.log ⟨?_, ?_⟩ hoffers
      · rw [standing_crowned]
        rfl
      · rw [standing_crowned]
        rfl
  | noted hevent hrole hrun => exact hpushed hevent.leader? hrun rfl rfl
  | accepted hevent hrole hrun => exact hpushed (hevent ▸ rfl) hrun rfl rfl
  | proposed hevent hrole hpending hchanges hrun =>
      exact hpushed (hevent ▸ rfl) hrun rfl rfl
  | @merged request reach j htakes hrun =>
      have hreach := hapt.reach_le htakes h.committed hrun
      refine ⟨?_, ?_, hoffers⟩
      · change max n.standing.commitIndex (min request.leaderCommit reach) ≤
          j.log.lastIndex
        omega
      · obtain ⟨ticket, rfl⟩ := htakes.event
        intro _ _ hevent
        exact absurd hevent (by simp)
  | refreshed => exact h.of_same rfl ⟨rfl, rfl⟩ hoffers
  | @rebased request disk j recorder hadmits hsaved hrun hrestored =>
      obtain ⟨ticket, rfl⟩ := hadmits.event
      have hidle := h.idle ticket request rfl
      have hcommit : max n.standing.commitIndex request.lastIncludedIndex =
          request.lastIncludedIndex :=
        max_eq_right (hidle.trans hadmits.new.le)
      have hlt := hapt.fit.boundary_le.trans_lt hadmits.new
      obtain ⟨hgapless, hboundary⟩ := Journal.gapless_rebase
        (j := ⟨n.log, disk⟩) hapt.fit.sound.gapless hlt hrun
      refine ⟨?_, fun _ _ _ => hcommit.le, hoffers⟩
      change max n.standing.commitIndex request.lastIncludedIndex ≤ j.log.lastIndex
      rw [hcommit, ← hboundary]
      exact hgapless.boundary_le_last
  | recorded => exact h.of_same rfl ⟨rfl, rfl⟩ hoffers

theorem Commits.stocked (hcommits : Commits event n n') (hapt : Apt event old n)
    (h : Stocked event n) : Stocked event n' := by
  have hoffers : n'.Offers := hcommits.every h.offers
  cases hcommits with
  | committed hevent hrole hmore hterm =>
      refine ⟨?_, ?_, hoffers⟩
      · have hlt := hapt.fit.boundary_le.trans_lt
          (hapt.fit.applied_le.trans_lt hmore)
        exact hapt.fit.sound.le_lastIndex_of_termAt? hlt hterm
      · rintro ticket request rfl
        exact absurd hevent (by simp [Event.leader?])

theorem Closes.stocked (hcloses : Closes event n n') (hapt : Apt event old n)
    (h : Stocked event n) : Stocked event n' := by
  have hoffers : n'.Offers := lasting_offered.closes hcloses h.offers
  cases hcloses with
  | @applied entry hmore hentry =>
      have henacted := enacted_applyEntry n entry (n.standing.lastApplied + 1)
      refine ⟨?_, ?_, hoffers⟩
      · rw [congrArg Journal.log henacted.journal, henacted.standing]
        exact h.committed
      · intro ticket request hevent
        exact absurd (h.idle ticket request hevent) (not_le.mpr hmore)
  | retired =>
      refine h.of_same (log_turned _ _ _) ⟨?_, ?_⟩ hoffers
      · rw [standing_turned, retiring_eq]
      · rw [standing_turned, retiring_eq]
  | @compacted term disk j hlong hsaved hrun =>
      have hlog : j.log = n.log.dropThrough n.standing.lastApplied term :=
        Journal.log_compactTo (j := ⟨n.log, disk⟩) hlong.new hrun
      refine ⟨?_, h.idle, hoffers⟩
      change _ ≤ j.log.lastIndex
      rw [hlog, hapt.fit.sound.gapless.lastIndex_dropThrough hlong.new.le
        hapt.fit.applied_le_last]
      exact h.committed
  | announced => exact h.of_same rfl ⟨rfl, rfl⟩ hoffers
  | dispatched => exact h.of_same rfl ⟨rfl, rfl⟩ hoffers
  | campaigned => exact h.of_same rfl ⟨rfl, rfl⟩ hoffers
  | answered => exact h.of_same rfl ⟨rfl, rfl⟩ hoffers

/-- What is on the side of the disk stays there through an event. -/
theorem Course.stocked (hcourse : Course event n n') (hold : old.Sound)
    (hapt : Apt event old n) (h : Stocked event n) :
    Apt event old n' ∧ Stocked event n' :=
  hcourse.keeps (I := fun m => Apt event old m ∧ Stocked event m)
    (fun _ _ hopens hm => ⟨hopens.apt hold hm.1, hopens.stocked hm.1 hm.2⟩)
    (fun _ _ hcommits hm => ⟨hcommits.apt hm.1, hcommits.stocked hm.1 hm.2⟩)
    (fun _ _ hcloses hm => ⟨hcloses.apt hold hm.1, hcloses.stocked hm.1 hm.2⟩)
    ⟨hapt, h⟩

/-- A leader finds what each of its peers needs. -/
theorem Fit.exists_sends (hn : n.Fit) {progress : Progress}
    (hpos : 0 < progress.nextIndex) : ∃ request kind, n.Sends progress request kind := by
  rcases le_or_gt progress.nextIndex n.log.snapshotIndex with hcompacted | hheld
  · cases hsnapshot : (Faithful.stored n.disk).snapshot with
    | none =>
        have hboundary := hn.boundary
        unfold Stored.boundary at hboundary
        rw [hsnapshot] at hboundary
        change 0 = n.log.snapshotIndex at hboundary
        omega
    | some snapshot =>
        have hload : Storage.loadSnapshot n.disk = .ok (some snapshot) := by
          rw [Faithful.loadSnapshot, hsnapshot]
        exact ⟨_, _, .snapshot hcompacted hload⟩
  · have hlast := hn.sound.boundary_le_last
    have hbefore : n.log.snapshotIndex ≤ n.beforeNext progress ∧
        n.beforeNext progress ≤ n.log.lastIndex := by
      rw [beforeNext_eq]
      omega
    have hterm := hn.sound.termAt?_eq hbefore.1 hbefore.2
    exact ⟨_, _, .entries hheld hterm⟩

/-- No deed of a fit node on a disk that works can fail. -/
theorem Apt.not_breaks (hapt : Apt event old n) (h : Stocked event n)
    {W : σ → Prop} (hworks : Storage.Works W) (hdisk : W n.disk) {disk : σ} :
    ¬ n.Breaks event disk := by
  intro hbreaks
  cases hbreaks with
  | turning hturns hchanged hrun =>
      exact (hworks.saveHardState _ _ hdisk).error hrun
  | appending hrole hrun =>
      exact (Journal.leaves_append hworks.entries _ _ n.toJournal hdisk).error hrun
  | merging htakes hrun =>
      exact (Journal.leaves_appendFromLeader hworks.entries _ _ n.toJournal
        hdisk).error hrun
  | receiving hadmits hrun => exact (hworks.saveSnapshot _ _ hdisk).error hrun
  | @rebasing request e disk j hadmits hsaved hrun =>
      have hdisk : W disk := (hworks.saveSnapshot _ _ hdisk).ok hsaved
      exact (Journal.leaves_rebase hworks.entries _ _ ⟨n.log, disk⟩ hdisk).error
        hrun
  | restoring hadmits hsaved hrun hrestored =>
      have hrequest := hadmits.isSound hapt.suits
      obtain ⟨m, hm⟩ :=
        hrequest.written.exists_restore hrequest.index_lt n.recorder
      exact absurd (hm.symm.trans hrestored) (by simp)
  | applying hmore hnone =>
      obtain ⟨entry, hentry⟩ := hapt.fit.sound.gapless.exists_get?
        (Nat.lt_succ_of_le hapt.fit.boundary_le) (Nat.le_trans hmore h.committed)
      exact absurd (hnone.symm.trans hentry) (by simp)
  | measuring hlong hnew hnone =>
      have hterm := hapt.fit.sound.termAt?_eq hnew.le hapt.fit.applied_le_last
      exact absurd (hnone.symm.trans hterm) (by simp)
  | saving hlong hrun => exact (hworks.saveSnapshot _ _ hdisk).error hrun
  | @compacting term e disk j hlong hsaved hrun =>
      have hdisk : W disk := (hworks.saveSnapshot _ _ hdisk).ok hsaved
      exact (Journal.leaves_compactTo hworks.entries _ _ ⟨n.log, disk⟩ hdisk).error
        hrun
  | sending hrole hpeer hnothing =>
      obtain ⟨request, kind, hsends⟩ :=
        hapt.fit.exists_sends (h.offers _ _ hpeer)
      exact hnothing request kind hsends

/-- A fit node on a disk that works gets through every event that suits it. -/
theorem Fit.exists_handle (hn : n.Fit) (hidle : n.Idle) (hoffers : n.Offers)
    {W : σ → Prop} (hworks : Storage.Works W) (hdisk : W n.disk)
    (hsuits : event.Suits n) : ∃ n', handle event n = .ok () n' := by
  have hstocked : Stocked event n :=
    ⟨hidle.trans hn.applied_le_last, fun _ _ _ => hidle, hoffers⟩
  cases hrun : handle event n with
  | ok a n' => exact ⟨n', rfl⟩
  | error e n' =>
      obtain ⟨m, hcourse, hfails⟩ := (handle_runs hn.saved event).error hrun
      obtain ⟨hapt, hkept⟩ := hcourse.stocked hn.sound (hn.apt hsuits) hstocked
      exact absurd hfails.breaks
        (hapt.not_breaks hkept hworks (hcourse.works hworks hdisk))

end

end Node

end Consensus
