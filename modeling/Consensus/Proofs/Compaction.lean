import Consensus.Proofs.Retention
import Consensus.Replica

/-!
# Compaction changes no answer

A log and what is left of it once a snapshot covers the entries up to some index end
alike, know the same terms from that index on, and take over the same entries.  What
lies further down is committed, so that a leader does not contradict it.  As long as
requests agree with the log so far, a replica and its compacted copy answer alike and
stay a replica and its compacted copy.

Only when a request does not fit do the answers differ: the hint of the copy is never
below the boundary.
-/

namespace Consensus

namespace Log

variable {log log' : Log} {boundary index term prev kept : ℕ} {sent fresh : List Entry}

/-- What is left of the log is `log'`, as a snapshot covers the entries up to the
boundary. -/
def CompactedAt (log : Log) (boundary : ℕ) (log' : Log) : Prop :=
  log.snapshotIndex < boundary ∧
    ∃ term, log.termAt? boundary = some term ∧ log' = log.dropThrough boundary term

/-- The entries have the terms that the log knows up to the boundary. -/
def AgreesWith (log : Log) (boundary : ℕ) (sent : List Entry) : Prop :=
  ∀ entry ∈ sent, entry.index ≤ boundary →
    ∀ term, log.termAt? entry.index = some term → term = entry.term

theorem skipTermDown_le (log : Log) (term index : ℕ) :
    log.skipTermDown term index ≤ index := by
  induction index with
  | zero => exact le_rfl
  | succ index ih =>
      unfold skipTermDown
      split
      · exact ih.trans (Nat.le_succ index)
      · exact le_rfl

namespace CompactedAt

theorem snapshotIndex_eq (h : log.CompactedAt boundary log') :
    log'.snapshotIndex = boundary := by
  obtain ⟨-, term, -, rfl⟩ := h
  rfl

theorem boundary_le_last (h : log.CompactedAt boundary log')
    (hgapless : log.Gapless) : boundary ≤ log.lastIndex := by
  obtain ⟨hlt, term, hterm, -⟩ := h
  exact hgapless.le_lastIndex_of_termAt? hlt hterm

theorem gapless (h : log.CompactedAt boundary log') (hgapless : log.Gapless) :
    log'.Gapless := by
  obtain ⟨hlt, term, -, rfl⟩ := h
  exact hgapless.dropThrough hlt.le term

theorem termAt?_eq (h : log.CompactedAt boundary log') (hle : boundary ≤ index) :
    log'.termAt? index = log.termAt? index := by
  obtain ⟨hlt, term, hterm, rfl⟩ := h
  exact termAt?_dropThrough hlt hterm hle

/-! ## Where the log ends -/

theorem lastIndex_eq (h : log.CompactedAt boundary log') (hgapless : log.Gapless) :
    log'.lastIndex = log.lastIndex := by
  have hlast := h.boundary_le_last hgapless
  obtain ⟨hlt, term, -, rfl⟩ := h
  exact hgapless.lastIndex_dropThrough hlt.le hlast term

/-- If no entry is left, the boundary has the term of the last one. -/
theorem lastTerm_eq (h : log.CompactedAt boundary log') (hgapless : log.Gapless) :
    log'.lastTerm = log.lastTerm := by
  have hlast := h.boundary_le_last hgapless
  obtain ⟨hlt, term, hterm, rfl⟩ := h
  rw [hgapless.lastIndex_eq] at hlast
  unfold lastTerm dropThrough
  dsimp only
  rw [List.getLast?_drop]
  by_cases hall : log.entries.length ≤ boundary - log.snapshotIndex
  · obtain rfl : boundary = log.snapshotIndex + log.entries.length := by omega
    rw [termAt?_of_lt hlt, Nat.add_sub_cancel_left, ← List.getLast?_eq_getElem?]
      at hterm
    obtain ⟨entry, hentry, rfl⟩ := Option.map_eq_some_iff.mp hterm
    rw [if_pos hall, hentry]
  · rw [if_neg hall]
    cases hend : log.entries.getLast? with
    | none =>
        rw [List.getLast?_eq_none_iff.mp hend] at hall
        exact absurd (Nat.zero_le _) hall
    | some entry => rfl

theorem isUpToDate_eq (h : log.CompactedAt boundary log') (hgapless : log.Gapless)
    (lastIndex lastTerm : ℕ) :
    log'.isUpToDate lastIndex lastTerm = log.isUpToDate lastIndex lastTerm := by
  unfold isUpToDate
  rw [h.lastIndex_eq hgapless, h.lastTerm_eq hgapless]

/-! ## Where a request fits -/

/-- Up to the boundary the log accepts what the request comes after. -/
theorem matchesAt_of_le (h : log.CompactedAt boundary log') (hgapless : log.Gapless)
    (hle : index ≤ boundary)
    (hagrees : ∀ own, log.termAt? index = some own → own = term) :
    log.matchesAt index term = true := by
  rw [matchesAt_iff]
  rcases lt_or_ge index log.snapshotIndex with hlt | hge
  · exact Or.inl hlt
  · cases hown : log.termAt? index with
    | none =>
        have hend := hgapless.lastIndex_lt_of_termAt? hge hown
        have hlast := h.boundary_le_last hgapless
        omega
    | some own => exact Or.inr (congrArg some (hagrees own hown))

theorem matchesAt_eq (h : log.CompactedAt boundary log') (hgapless : log.Gapless)
    (hagrees : index ≤ boundary → ∀ own, log.termAt? index = some own → own = term) :
    log'.matchesAt index term = log.matchesAt index term := by
  rcases lt_or_ge index boundary with hlt | hge
  · rw [h.matchesAt_of_le hgapless hlt.le (hagrees hlt.le), matchesAt_iff,
      h.snapshotIndex_eq]
    exact Or.inl hlt
  · have hbeyond := (h.1.trans_le hge).not_gt
    rw [Bool.eq_iff_iff, matchesAt_iff, matchesAt_iff, h.snapshotIndex_eq,
      h.termAt?_eq hge, or_iff_right hge.not_gt, or_iff_right hbeyond]

/-- The search down the log stops at the boundary. -/
theorem skipTermDown_eq (h : log.CompactedAt boundary log') (hle : boundary ≤ index)
    (term : ℕ) :
    log'.skipTermDown term index = max (log.skipTermDown term index) boundary := by
  have hlt := h.1
  induction index with
  | zero => omega
  | succ index ih =>
      unfold skipTermDown
      rw [h.snapshotIndex_eq, h.termAt?_eq hle]
      rcases hle.eq_or_lt with hboundary | hbeyond
      · have hskipped := skipTermDown_le log term index
        rw [if_neg fun hcond => hcond.1.ne hboundary]
        split
        · omega
        · omega
      · by_cases hterm : log.termAt? (index + 1) = some term
        · rw [if_pos ⟨hbeyond, hterm⟩, if_pos ⟨by omega, hterm⟩]
          exact ih (Nat.le_of_lt_succ hbeyond)
        · rw [if_neg fun hcond => hterm hcond.2, if_neg fun hcond => hterm hcond.2]
          exact (max_eq_left hle).symm

theorem conflictHint_eq (h : log.CompactedAt boundary log') (hgapless : log.Gapless)
    (hlt : boundary < index) :
    log'.conflictHint index = max (log.conflictHint index) boundary := by
  have hlast := h.boundary_le_last hgapless
  have hboundary := h.1
  unfold conflictHint
  rw [h.lastIndex_eq hgapless, h.termAt?_eq hlt.le]
  split
  · exact (max_eq_left hlast).symm
  · next hwithin =>
    cases hterm : log.termAt? index with
    | none =>
        have hend := hgapless.lastIndex_lt_of_termAt? (by omega) hterm
        exact absurd hend hwithin
    | some term =>
        have hbeyond : boundary ≤ Counting.minus index 1 := Nat.le_sub_one_of_lt hlt
        exact h.skipTermDown_eq hbeyond term

/-! ## Taking over what a leader sends -/

theorem merge_eq (h : log.CompactedAt boundary log') (hgapless : log.Gapless)
    (hagrees : log.AgreesWith boundary sent) : log'.merge sent = log.merge sent := by
  -- on the entries: those up to the boundary are passed over by both logs
  induction sent with
  | nil => rfl
  | cons entry rest ih =>
      have hrest := ih fun e he => hagrees e (List.mem_cons_of_mem _ he)
      rw [merge_cons, merge_cons, h.snapshotIndex_eq, hrest]
      rcases le_or_gt entry.index boundary with hle | hgt
      · rw [if_pos hle]
        split
        · rfl
        · next hbeyond =>
          cases hterm : log.termAt? entry.index with
          | none =>
              have hend := hgapless.lastIndex_lt_of_termAt? (not_le.mp hbeyond).le hterm
              have hlast := h.boundary_le_last hgapless
              omega
          | some term =>
              exact (if_pos (hagrees entry List.mem_cons_self hle term hterm)).symm
      · rw [if_neg hgt.not_ge, if_neg (h.1.trans hgt).not_ge, h.termAt?_eq hgt.le]

/-- What replaces the entries after an index replaces them in what is left, too. -/
theorem splice (h : log.CompactedAt boundary log') (hgapless : log.Gapless)
    (hle : boundary ≤ kept) (hlast : kept ≤ log.lastIndex) (fresh : List Entry) :
    (log.splice kept fresh).CompactedAt boundary (log'.splice kept fresh) := by
  obtain ⟨hlt, term, hterm, rfl⟩ := h
  have hlength := hgapless.length_take_kept hlast
  refine ⟨hlt, term, ?_, ?_⟩
  · rw [hgapless.termAt?_splice hlast hle]
    exact hterm
  · unfold Log.splice dropThrough
    dsimp only
    rw [List.drop_append_of_le_length (by omega), List.drop_take]
    congr 3
    omega

/-- The log reaches beyond the boundary wherever it is cut. -/
theorem boundary_le_kept (h : log.CompactedAt boundary log') (hgapless : log.Gapless)
    (hagrees : log.AgreesWith boundary sent) {early : List Entry}
    (hmeets : log.Meets prev sent kept early fresh) : boundary ≤ kept := by
  rcases hmeets.merge with ⟨-, rfl⟩ | ⟨-, -, entry, hentry, hindex, term, hterm, hother⟩
  · exact h.boundary_le_last hgapless
  · by_contra hlt
    exact hother (hagrees entry hentry (by omega) term hterm)

end CompactedAt

end Log

/-! ## Answers to vote requests -/

theorem Log.CompactedAt.answerVote_eq {log log' : Log} {boundary : ℕ}
    (h : log.CompactedAt boundary log') (hgapless : log.Gapless) (standing : Standing)
    (request : VoteRequest) :
    standing.answerVote log' request = standing.answerVote log request := by
  unfold Standing.answerVote
  rw [h.isUpToDate_eq hgapless]

/-! ## Answers to append requests -/

/-- The request continues the log that the boundary belongs to: its entries follow the
previous one, and up to the boundary it has the terms that the log knows. -/
structure AppendRequest.Continues (request : AppendRequest) (log : Log)
    (boundary : ℕ) : Prop where
  numbered : NumberedFrom request.prevIndex request.entries
  prev : request.prevIndex ≤ boundary →
    ∀ term, log.termAt? request.prevIndex = some term → term = request.prevTerm
  entries : log.AgreesWith boundary request.entries

/-- What the log has beyond the boundary makes no difference. -/
theorem AppendRequest.Continues.of_termAt? {request : AppendRequest} {log log' : Log}
    {boundary : ℕ} (h : request.Continues log boundary)
    (hterms : ∀ index ≤ boundary, log'.termAt? index = log.termAt? index) :
    request.Continues log' boundary where
  numbered := h.numbered
  prev hle term hterm := h.prev hle term (hterms _ hle ▸ hterm)
  entries entry hentry hle term hterm :=
    h.entries entry hentry hle term (hterms _ hle ▸ hterm)

/-- The second answer says the same as the first, but for a hint below the boundary. -/
structure AppendReply.AlikeFrom (boundary : ℕ) (reply reply' : AppendReply) : Prop where
  term : reply'.term = reply.term
  success : reply'.success = reply.success
  accepted : reply.success = true → reply'.matchIndex = reply.matchIndex
  refused : reply.success = false → reply'.matchIndex = max reply.matchIndex boundary

namespace Replica

variable {σ : Type} [Storage σ] {Holds : σ → Stored → Prop} {Writable : ℕ → Prop}
  {fails : Prop} {r r' : Replica σ} {request : AppendRequest} {boundary : ℕ}

/-- A request of an older term is refused. -/
theorem answerAppend_of_stale
    (hlt : request.term < (r.standing.observeTerm request.term).currentTerm) :
    Ensures (answerAppend request) r
      (fun reply after => reply = ⟨(r.standing.observeTerm request.term).currentTerm,
          false, r.log.lastIndex⟩ ∧
        after = { r with standing := r.standing.observeTerm request.term })
      fun _ => False := by
  unfold answerAppend modifyStanding
  rw [Ensures.modify_bind_iff, Ensures.get_bind_iff]
  exact Ensures.ite (fun _ => ⟨rfl, rfl⟩) fun hle => absurd hlt hle

/-- A request that does not fit is refused, and its sender is the leader. -/
theorem answerAppend_of_mismatch
    (hle : ¬ request.term < (r.standing.observeTerm request.term).currentTerm)
    (hmatches : r.log.matchesAt request.prevIndex request.prevTerm = false) :
    Ensures (answerAppend request) r
      (fun reply after => reply = ⟨(r.standing.observeTerm request.term).currentTerm,
          false, r.log.conflictHint request.prevIndex⟩ ∧
        after = { r with
          standing := acceptLeader (r.standing.observeTerm request.term) request })
      fun _ => False := by
  unfold answerAppend modifyStanding
  rw [Ensures.modify_bind_iff, Ensures.get_bind_iff]
  refine Ensures.ite (fun hlt => absurd hlt hle) fun _ => ?_
  rw [Ensures.modify_bind_iff]
  refine Ensures.ite (fun _ => ⟨rfl, rfl⟩) fun hfits => absurd ?_ hfits
  exact congrArg (!·) hmatches

/-- A request that fits is taken over as far as the journal can. -/
theorem answerAppend_of_match {Q : ℕ → Journal σ → Prop} {E : Journal σ → Prop}
    (hle : ¬ request.term < (r.standing.observeTerm request.term).currentTerm)
    (hmatches : r.log.matchesAt request.prevIndex request.prevTerm = true)
    (htaken : Ensures (Journal.appendFromLeader request.prevIndex request.entries)
      r.toJournal Q E) :
    Ensures (answerAppend request) r
      (fun reply after => ∃ reach,
        reply = ⟨(r.standing.observeTerm request.term).currentTerm, true, reach⟩ ∧
        after.standing = followCommit
          (acceptLeader (r.standing.observeTerm request.term) request)
          request.leaderCommit reach ∧ Q reach after.toJournal)
      fun after => E after.toJournal := by
  unfold answerAppend modifyStanding
  rw [Ensures.modify_bind_iff, Ensures.get_bind_iff]
  refine Ensures.ite (fun hlt => absurd hlt hle) fun _ => ?_
  rw [Ensures.modify_bind_iff]
  refine Ensures.ite (fun hfits => absurd hfits ?_) fun _ => ?_
  · dsimp only
    rw [hmatches]
    decide
  · apply Ensures.bind
    apply Ensures.onPart
    exact htaken.imp fun reach after hafter => ⟨reach, rfl, rfl, hafter⟩

/-- The second replica is the first one with its log compacted at the boundary. -/
structure CompactedAt (Holds : σ → Stored → Prop) (boundary : ℕ) (r r' : Replica σ) :
    Prop where
  gapless : r.log.Gapless
  log : r.log.CompactedAt boundary r'.log
  standing : r'.standing = r.standing
  keeps : ∃ s, r.toJournal.Keeps Holds s
  keeps' : ∃ s, r'.toJournal.Keeps Holds s

/-- Both journals take over the same entries, one is still the other compacted, and up
to the boundary nothing changes. -/
theorem CompactedAt.appendFromLeader
    (hretains : Storage.Retains Holds Writable fails) (h : CompactedAt Holds boundary r r')
    (hcontinues : request.Continues r.log boundary)
    (hfits : ∀ entry ∈ request.entries, entry.Fits Writable)
    (hmatches : r.log.matchesAt request.prevIndex request.prevTerm = true) :
    Ensures (Journal.appendFromLeader request.prevIndex request.entries) r.toJournal
      (fun reach j =>
        Ensures (Journal.appendFromLeader request.prevIndex request.entries) r'.toJournal
          (fun reach' j' => reach' = reach ∧
            (∀ index ≤ boundary, j.log.termAt? index = r.log.termAt? index) ∧
            j.log.Gapless ∧ j.log.CompactedAt boundary j'.log ∧
            (∃ s, j.Keeps Holds s) ∧ ∃ s, j'.Keeps Holds s)
          fun _ => fails)
      fun _ => fails := by
  obtain ⟨s, hkeeps⟩ := h.keeps
  obtain ⟨s', hkeeps'⟩ := h.keeps'
  have hgapless := h.gapless
  have hprev := hgapless.le_last_of_matchesAt hmatches
  obtain ⟨kept, early, fresh, hmeets⟩ :=
    hgapless.exists_meets hcontinues.numbered hprev
  have hle := h.log.boundary_le_kept hgapless hcontinues.entries hmeets
  have hlast := hmeets.adjoins.le_last
  have hfresh : ∀ entry ∈ fresh, entry.Fits Writable := fun entry hentry =>
    hfits entry (hmeets.split ▸ List.mem_append_right _ hentry)
  have hmerge := hmeets.merge.imp_right fun ⟨hcut, hlt, _⟩ => And.intro hcut hlt
  have hadjoins' : r'.log.Adjoins kept fresh :=
    ⟨h.log.snapshotIndex_eq.trans_le hle,
      hlast.trans (h.log.lastIndex_eq hgapless).ge, hmeets.adjoins.numbered⟩
  have hmerge' : r'.log.merge request.entries = ⟨none, fresh⟩ ∧ kept = r'.log.lastIndex ∨
      r'.log.merge request.entries = ⟨some (kept + 1), fresh⟩ ∧
        kept < r'.log.lastIndex := by
    rw [h.log.merge_eq hgapless hcontinues.entries, h.log.lastIndex_eq hgapless]
    exact hmerge
  refine (hkeeps.appendFromLeader hretains hgapless hmeets.adjoins hmerge hfresh).imp ?_
  rintro reach j ⟨hreach, hlog, hkept⟩
  refine (hkeeps'.appendFromLeader hretains (h.log.gapless hgapless) hadjoins' hmerge'
    hfresh).imp ?_
  rintro reach' j' ⟨hreach', hlog', hkept'⟩
  refine ⟨hreach'.trans hreach.symm, fun index hindex => ?_, ?_, ?_, ⟨s, hkept⟩, s',
    hkept'⟩
  · rw [hlog]
    exact hgapless.termAt?_splice hlast (hindex.trans hle) fresh
  · rw [hlog]
    exact hgapless.splice hmeets.adjoins
  · rw [hlog, hlog']
    exact h.log.splice hgapless hle hlast fresh

/-- Refused by both with hints that are alike, a request leaves a replica and its
compacted copy. -/
theorem CompactedAt.refused {standing standing' : Standing} {term hint hint' : ℕ}
    (h : CompactedAt Holds boundary r r') (hstanding : standing' = standing)
    (hhint : hint' = max hint boundary)
    (hfirst : Ensures (Replica.answerAppend request) r
      (fun reply after => reply = ⟨term, false, hint⟩ ∧
        after = { r with standing := standing }) fun _ => False)
    (hsecond : Ensures (Replica.answerAppend request) r'
      (fun reply after => reply = ⟨term, false, hint'⟩ ∧
        after = { r' with standing := standing' }) fun _ => False) :
    Ensures (Replica.answerAppend request) r
      (fun reply after => Ensures (Replica.answerAppend request) r'
        (fun reply' after' => reply.AlikeFrom boundary reply' ∧
          CompactedAt Holds boundary after after' ∧
          ∀ index ≤ boundary, after.log.termAt? index = r.log.termAt? index)
        fun _ => fails)
      fun _ => fails := by
  refine hfirst.mono ?_ fun _ hnever => hnever.elim
  rintro - - ⟨rfl, rfl⟩
  refine hsecond.mono ?_ fun _ hnever => hnever.elim
  rintro - - ⟨rfl, rfl⟩
  exact ⟨⟨rfl, rfl, nofun, fun _ => hhint⟩,
    ⟨h.gapless, h.log, hstanding, h.keeps, h.keeps'⟩, fun _ _ => rfl⟩

/-- A replica and its compacted copy answer a request alike, and the copy is then what
compaction makes of the replica.  Up to the boundary the log stays what it was. -/
theorem CompactedAt.answerAppend (hretains : Storage.Retains Holds Writable fails)
    (h : CompactedAt Holds boundary r r') (hcontinues : request.Continues r.log boundary)
    (hfits : ∀ entry ∈ request.entries, entry.Fits Writable) :
    Ensures (answerAppend request) r
      (fun reply after => Ensures (answerAppend request) r'
        (fun reply' after' => reply.AlikeFrom boundary reply' ∧
          CompactedAt Holds boundary after after' ∧
          ∀ index ≤ boundary, after.log.termAt? index = r.log.termAt? index)
        fun _ => fails)
      fun _ => fails := by
  obtain ⟨j', standing'⟩ := r'
  obtain rfl : standing' = r.standing := h.standing
  by_cases hstale : request.term < (r.standing.observeTerm request.term).currentTerm
  · refine h.refused rfl ?_ (answerAppend_of_stale hstale) (answerAppend_of_stale hstale)
    have hlast := h.log.lastIndex_eq h.gapless
    have hboundary := h.log.boundary_le_last h.gapless
    exact hlast.trans (max_eq_left hboundary).symm
  · have hsame := h.log.matchesAt_eq h.gapless hcontinues.prev
    cases hmatches : r.log.matchesAt request.prevIndex request.prevTerm with
    | false =>
        have hbeyond : boundary < request.prevIndex := by
          by_contra hlt
          have hle := not_lt.mp hlt
          have hfit := h.log.matchesAt_of_le h.gapless hle (hcontinues.prev hle)
          exact Bool.false_ne_true (hmatches.symm.trans hfit)
        exact h.refused rfl (h.log.conflictHint_eq h.gapless hbeyond)
          (answerAppend_of_mismatch hstale hmatches)
          (answerAppend_of_mismatch hstale (hsame.trans hmatches))
    | true =>
        refine (answerAppend_of_match hstale hmatches
          (h.appendFromLeader hretains hcontinues hfits hmatches)).imp ?_
        rintro - after ⟨reach, rfl, hafter, htaken⟩
        refine (answerAppend_of_match (r := ⟨j', r.standing⟩) hstale
          (hsame.trans hmatches) htaken).imp ?_
        rintro - after' ⟨reach', rfl, hafter', rfl, hterms, hgapless, hlog, hkeeps,
          hkeeps'⟩
        exact ⟨⟨rfl, rfl, fun _ => rfl, nofun⟩,
          ⟨hgapless, hlog, hafter'.trans hafter.symm, hkeeps, hkeeps'⟩, hterms⟩

/-- Over any requests that continue the log as it is at the start, a replica and its
compacted copy give answers that are alike one by one. -/
theorem CompactedAt.answerAll (hretains : Storage.Retains Holds Writable fails)
    (requests : List AppendRequest) (h : CompactedAt Holds boundary r r')
    (hcontinue : ∀ request ∈ requests, request.Continues r.log boundary)
    (hfits : ∀ request ∈ requests, ∀ entry ∈ request.entries, entry.Fits Writable) :
    Ensures (requests.mapM Replica.answerAppend) r
      (fun replies after => Ensures (requests.mapM Replica.answerAppend) r'
        (fun replies' after' => List.Forall₂ (AppendReply.AlikeFrom boundary) replies replies' ∧
          CompactedAt Holds boundary after after')
        fun _ => fails)
      fun _ => fails := by
  induction requests generalizing r r' with
  | nil => exact ⟨.nil, h⟩
  | cons request rest ih =>
      rw [List.mapM_cons]
      refine (h.answerAppend hretains (hcontinue request List.mem_cons_self)
        (hfits request List.mem_cons_self)).andThen fun reply after hcopy => ?_
      cases hrun : Replica.answerAppend request r' with
      | error e after' =>
          have hfails := hcopy.error hrun
          refine Ensures.of_runs (fun _ _ _ => ?_) fun _ _ _ => hfails
          exact Ensures.bind (.of_error hrun hfails)
      | ok reply' after' =>
          obtain ⟨halike, hafter, hterms⟩ := hcopy.ok hrun
          have hcontinue' : ∀ request ∈ rest, request.Continues after.log boundary :=
            fun request hrequest => (hcontinue request
              (List.mem_cons_of_mem _ hrequest)).of_termAt? hterms
          refine (ih hafter hcontinue' fun request hrequest =>
            hfits request (List.mem_cons_of_mem _ hrequest)).andThen ?_
          intro replies last hlast
          refine Ensures.bind_of_ok hrun (hlast.andThen ?_)
          rintro replies' last' ⟨hall, hcompacted⟩
          exact ⟨.cons halike hall, hcompacted⟩

end Replica

namespace Journal

variable {σ : Type} [Storage σ] {Holds : σ → Stored → Prop} {Writable : ℕ → Prop}
  {fails : Prop} {j : Journal σ} {s : Stored} {boundary : ℕ}

/-- A journal may be compacted at every index that it holds.  Then the node answers vote
requests as before, and it answers append requests as it would have answered them. -/
theorem Keeps.compaction_unnoticed (hretains : Storage.Retains Holds Writable fails)
    (h : j.Keeps Holds s) (hgapless : j.log.Gapless)
    (hlt : j.log.snapshotIndex < boundary) (hle : boundary ≤ j.log.lastIndex) :
    ∃ term, j.log.termAt? boundary = some term ∧
      Ensures (Journal.compactTo boundary term) j
        (fun _ j' => j.log.CompactedAt boundary j'.log ∧
          (∀ standing : Standing, ∀ request,
            standing.answerVote j'.log request = standing.answerVote j.log request) ∧
          ∀ standing request, request.Continues j.log boundary →
            (∀ entry ∈ request.entries, entry.Fits Writable) →
            Ensures (Replica.answerAppend request) ⟨j, standing⟩
              (fun reply r => Ensures (Replica.answerAppend request) ⟨j', standing⟩
                (fun reply' r' => reply.AlikeFrom boundary reply' ∧
                  r'.standing = r.standing ∧ r.log.CompactedAt boundary r'.log)
                fun _ => fails)
              fun _ => fails)
        fun _ => fails := by
  obtain ⟨entry, hentry⟩ := hgapless.exists_get? hlt hle
  have hterm : j.log.termAt? boundary = some entry.term := by
    rw [Log.termAt?_eq_get? hlt, hentry]
    rfl
  refine ⟨entry.term, hterm, (h.compactTo hretains hgapless hlt entry.term).imp ?_⟩
  rintro - j' ⟨hlog, hkeeps⟩
  have hcompacted : j.log.CompactedAt boundary j'.log := ⟨hlt, entry.term, hterm, hlog⟩
  refine ⟨hcompacted, hcompacted.answerVote_eq hgapless, ?_⟩
  intro standing request hcontinues hfits
  have hcopy : Replica.CompactedAt Holds boundary ⟨j, standing⟩ ⟨j', standing⟩ :=
    ⟨hgapless, hcompacted, rfl, ⟨s, h⟩, s, hkeeps⟩
  refine (hcopy.answerAppend hretains hcontinues hfits).imp fun reply r hreply => ?_
  exact hreply.imp fun reply' r' ⟨halike, hcopy', _⟩ =>
    ⟨halike, hcopy'.standing, hcopy'.log⟩

/-- A journal of four entries after a snapshot. -/
def settled : Journal Memory where
  log := ⟨[⟨1, 2, .noop⟩, ⟨1, 3, .command [3]⟩, ⟨1, 4, .noop⟩, ⟨2, 5, .noop⟩], 1, 1⟩
  disk := { entries := [⟨1, 2, .noop⟩, ⟨1, 3, .command [3]⟩, ⟨1, 4, .noop⟩, ⟨2, 5, .noop⟩] }

/-- A leader of the third term sends again what is covered then, and overrules the last
entry. -/
def resent : AppendRequest where
  term := 3
  leader := 2
  prevIndex := 2
  prevTerm := 1
  entries := [⟨1, 3, .command [3]⟩, ⟨1, 4, .noop⟩, ⟨3, 5, .noop⟩]
  leaderCommit := 4

theorem continues_resent : resent.Continues settled.log 4 where
  numbered := .cons rfl (.cons rfl (.cons rfl (.nil 5)))
  prev _ _ hterm := (Option.some.inj hterm).symm
  entries := by
    have hagrees : ∀ entry ∈ resent.entries, entry.index ≤ 4 →
        ∀ term ∈ settled.log.termAt? entry.index, term = entry.term := by decide
    exact hagrees

/-- The case of a request that begins below the new boundary. -/
theorem compaction_unnoticed_resent :
    Ensures (Journal.compactTo 4 1) settled
      (fun _ j' => j'.log = ⟨[⟨2, 5, .noop⟩], 4, 1⟩ ∧ ∀ standing,
        Ensures (Replica.answerAppend resent) ⟨settled, standing⟩
          (fun reply r => Ensures (Replica.answerAppend resent) ⟨j', standing⟩
            (fun reply' r' => reply'.success = reply.success ∧
              r'.standing = r.standing ∧ r.log.CompactedAt 4 r'.log)
            fun _ => False)
          fun _ => False)
      fun _ => False := by
  have hkeeps : settled.Keeps Memory.Retaining settled.disk.stored := ⟨⟨rfl, rfl⟩, rfl⟩
  have hgapless : settled.log.Gapless :=
    .cons rfl (.cons rfl (.cons rfl (.cons rfl (.nil 5))))
  have hfits : ∀ entry ∈ resent.entries, entry.Fits fun _ => True := fun entry _ =>
    entry.fits_of_all fun _ => trivial
  have hlt : settled.log.snapshotIndex < 4 := by decide
  obtain ⟨term, hterm, hcompact⟩ :=
    Keeps.compaction_unnoticed retains_clean hkeeps hgapless hlt (by decide)
  obtain rfl : 1 = term := Option.some.inj hterm
  refine hcompact.imp ?_
  rintro - j' ⟨⟨-, term, hterm', hlog⟩, -, hanswers⟩
  obtain rfl : 1 = term := Option.some.inj hterm'
  refine ⟨hlog, fun standing => ?_⟩
  refine (hanswers standing resent continues_resent hfits).imp fun reply r hreply => ?_
  exact hreply.imp fun reply' r' ⟨halike, hstanding, hcompacted⟩ =>
    ⟨halike.success, hstanding, hcompacted⟩

end Journal

end Consensus
