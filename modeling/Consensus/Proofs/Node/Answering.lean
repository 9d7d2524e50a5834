import Consensus.Proofs.LogAgreement
import Consensus.Proofs.Node.Following
import Consensus.Proofs.Node.Level
import Consensus.Proofs.Node.Tracing

/-!
# Answering a leader

A node that trails a leader has a log that agrees with the leader's as far as it is
committed, and as far as the leader has been told.  If the writes on its disk work,
it cannot fail, and whatever a leader sends it leaves it so: it takes over what fits
its log, or tells the leader that it does not.
-/

namespace Consensus

/-! ## Disks that work -/

/-- Every write on a disk of the kind works, and leaves such a disk. -/
structure Storage.Works {τ : Type} [Storage τ] (W : τ → Prop) : Prop where
  entries : EntryWrites W fun _ => False
  saveHardState : ∀ hard d, W d →
    Ensures (Storage.saveHardState hard) d (fun _ => W) fun _ => False
  saveSnapshot : ∀ snapshot d, W d →
    Ensures (Storage.saveSnapshot snapshot) d (fun _ => W) fun _ => False

theorem works_clean : Storage.Works Memory.Clean where
  entries := {
    append := fun entries _ h =>
      .of_ok (h.append entries) (h.withEntries _)
    truncateFrom := fun index _ h =>
      .of_ok (h.truncateFrom index) (h.withEntries _)
    compactTo := fun index _ h =>
      .of_ok (h.compactTo index) (h.withEntries _) }
  saveHardState hard _ h :=
    .of_ok (h.saveHardState hard) ⟨h.failing, h.readOnly⟩
  saveSnapshot snapshot _ h :=
    .of_ok (h.saveSnapshot snapshot) ⟨h.failing, h.readOnly⟩

namespace Node

variable {σ τ : Type} {W : τ → Prop} {r : Replica σ} {reach : ℕ} {f f' : Node τ}

/-- The node is on its way to the log of the leader `r`, which has been told that
the node is there up to the index `reach`. -/
structure Trails (W : τ → Prop) (r : Replica σ) (reach : ℕ) (f : Node τ) :
    Prop where
  disk : W f.disk
  role : f.standing.role ≠ .leader
  term_le : f.standing.currentTerm ≤ r.standing.currentTerm
  boundary_le : f.log.snapshotIndex ≤ f.standing.lastApplied
  applied_le : f.standing.lastApplied ≤ f.standing.commitIndex
  told : min r.standing.commitIndex reach ≤ f.standing.commitIndex
  shares : r.log.Shares f.log (max f.standing.commitIndex reach)

theorem Trails.boundary_le_commit (h : f.Trails W r reach) :
    f.log.snapshotIndex ≤ f.standing.commitIndex :=
  h.boundary_le.trans h.applied_le

theorem Trails.commit_le_last (h : f.Trails W r reach) :
    f.standing.commitIndex ≤ f.log.lastIndex :=
  (le_max_left _ _).trans h.shares.le_last

/-- Where the node stands may change, but not what it has. -/
theorem Trails.moved (h : f.Trails W r reach) (hdisk : W f'.disk)
    (hrole : f'.standing.role ≠ .leader)
    (hterm : f'.standing.currentTerm ≤ r.standing.currentTerm)
    (hlog : f'.log = f.log)
    (hboundary : f.log.snapshotIndex ≤ f'.standing.lastApplied)
    (happlied : f'.standing.lastApplied ≤ f.standing.commitIndex)
    (hcommit : f'.standing.commitIndex = f.standing.commitIndex) :
    f'.Trails W r reach := by
  constructor
  · exact hdisk
  · exact hrole
  · exact hterm
  · rw [hlog]
    exact hboundary
  · rw [hcommit]
    exact happlied
  · rw [hcommit]
    exact h.told
  · rw [hlog, hcommit]
    exact h.shares

theorem Trails.of_standing (h : f.Trails W r reach) (hdisk : W f'.disk)
    (hlog : f'.log = f.log) (hstanding : f'.standing = f.standing) :
    f'.Trails W r reach := by
  apply h.moved hdisk _ _ hlog
  · rw [hstanding]
    exact h.boundary_le
  · rw [hstanding]
    exact h.applied_le
  · rw [hstanding]
  · rw [hstanding]
    exact h.role
  · rw [hstanding]
    exact h.term_le

theorem Trails.aside (h : f.Trails W r reach) (haside : Aside f f') :
    f'.Trails W r reach := by
  apply h.of_standing _ haside.log haside.standing
  rw [haside.disk]
  exact h.disk

/-- The leader may be told of what is applied. -/
theorem Trails.told_of_le (h : f.Trails W r reach) {index : ℕ}
    (hle : index ≤ f.standing.lastApplied) :
    f.Trails W r (max reach index) := by
  have happlied := h.applied_le
  have htold := h.told
  have hsame : max f.standing.commitIndex (max reach index) =
      max f.standing.commitIndex reach := by
    omega
  exact { h with
    told := by omega
    shares := by
      rw [hsame]
      exact h.shares }

/-- The node hears of the term of the leader. -/
theorem Trails.observe (h : f.Trails W r reach) :
    (f.mapStanding (·.observeTerm r.standing.currentTerm)).Trails W r reach := by
  have happlied := lastApplied_observeTerm f.standing r.standing.currentTerm
  apply h.moved
  · exact h.disk
  · exact role_observeTerm h.role _
  · exact (currentTerm_observeTerm h.term_le).le
  · rfl
  · exact happlied.symm ▸ h.boundary_le
  · exact happlied.symm ▸ h.applied_le
  · exact commitIndex_observeTerm _ _

/-- The node follows the leader. -/
theorem Trails.followed (h : f.Trails W r reach) {term : ℕ}
    (hterm : term ≤ f.standing.currentTerm) (leader : ℕ) :
    Trails W r reach
      { f with standing := following f.standing term leader } := by
  obtain ⟨votes, hfollowing⟩ := following_eq hterm leader
  rw [hfollowing]
  apply h.moved
  · exact h.disk
  · exact fun hleads => absurd hleads (by simp)
  · exact h.term_le
  · rfl
  · exact h.boundary_le
  · exact h.applied_le
  · rfl

/-! ## What is committed is carried out -/

variable [Storage τ] {event : Event}

theorem Closes.trails (hcloses : Closes event f f') (hworks : Storage.Works W)
    (h : f.Trails W r reach) : f'.Trails W r reach := by
  cases hcloses with
  | @applied entry hmore hentry =>
      have henacted := enacted_applyEntry f entry (f.standing.lastApplied + 1)
      have hjournal := henacted.journal
      have hstanding := henacted.standing
      apply h.moved
      · exact congrArg Journal.disk hjournal ▸ h.disk
      · rw [hstanding]
        exact h.role
      · rw [hstanding]
        exact h.term_le
      · exact congrArg Journal.log hjournal
      · rw [hstanding]
        exact h.boundary_le.trans (Nat.le_succ _)
      · rw [hstanding]
        exact hmore
      · rw [hstanding]
  | retired hrole => exact absurd hrole h.role
  | announced => exact h.of_standing h.disk rfl rfl
  | @compacted term disk j hlong hsaved hrun =>
      have hlog := Journal.log_compactTo (j := ⟨f.log, disk⟩) hlong.new hrun
      have hdisk : W disk := (hworks.saveSnapshot _ _ h.disk).ok hsaved
      constructor
      · exact (Journal.leaves_compactTo hworks.entries _ _ ⟨f.log, disk⟩
          hdisk).ok hrun
      · exact h.role
      · exact h.term_le
      · exact (congrArg Log.snapshotIndex hlog).le
      · exact h.applied_le
      · exact h.told
      · change r.log.Shares j.log _
        rw [hlog]
        exact h.shares.dropThrough hlong.new
          (h.applied_le.trans (Nat.le_max_left _ _)) hlong.term
  | dispatched hrole => exact absurd hrole h.role
  | campaigned => exact h.of_standing h.disk rfl rfl
  | answered => exact h.of_standing h.disk rfl rfl

/-- Nothing can fail that follows from what the node has. -/
theorem Trails.not_breaks (h : f.Trails W r reach) (hworks : Storage.Works W)
    (hevent : event.leader? = none) {disk : τ} : ¬ f.Breaks event disk := by
  have hadmits : ∀ request, ¬ f.Admits event request := by
    intro request hadmits
    obtain ⟨_, rfl⟩ := hadmits.event
    exact absurd hevent (by simp [Event.leader?])
  intro hbreaks
  cases hbreaks with
  | turning _ _ hrun => exact (hworks.saveHardState _ _ h.disk).error hrun
  | appending hrole => exact h.role hrole
  | merging _ hrun =>
      exact (Journal.leaves_appendFromLeader hworks.entries _ _ f.toJournal
        h.disk).error hrun
  | receiving hnew => exact hadmits _ hnew
  | rebasing hnew => exact hadmits _ hnew
  | restoring hnew => exact hadmits _ hnew
  | applying hmore hnone =>
      obtain ⟨entry, hentry⟩ := h.shares.gapless.exists_get?
        (Nat.lt_succ_of_le h.boundary_le) (Nat.le_trans hmore h.commit_le_last)
      exact absurd (hnone.symm.trans hentry) (by simp)
  | measuring _ hnew hnone =>
      have hend := h.shares.gapless.lastIndex_lt_of_termAt? hnew.le hnone
      have hlast := h.applied_le.trans h.commit_le_last
      omega
  | saving _ hrun => exact (hworks.saveSnapshot _ _ h.disk).error hrun
  | @compacting term e disk j hlong hsaved hrun =>
      have hdisk : W disk := (hworks.saveSnapshot _ _ h.disk).ok hsaved
      exact (Journal.leaves_compactTo hworks.entries _ _ ⟨f.log, disk⟩
        hdisk).error hrun
  | sending hrole => exact h.role hrole

theorem Trails.applyCommitted (h : f.Trails W r reach)
    (hworks : Storage.Works W) (hsaved : f.Saved) :
    Ensures Node.applyCommitted f (fun _ => Trails W r reach)
      fun _ => False := by
  have hclosing : ∀ m, Closing .heartbeat f m → m.Trails W r reach :=
    fun m hm => keeps_of_reflTransGen hm (fun _ _ hcloses => hcloses.trails hworks) h
  apply Ensures.mono (does_applyCommitted hsaved)
  · intro _ m hm
    exact hclosing m hm.1
  · rintro m ⟨k, hk, hfails⟩
    exact (hclosing k hk).not_breaks hworks rfl hfails.breaks

theorem Trails.ensures_persist (h : f.Trails W r reach)
    (hworks : Storage.Works W) :
    Ensures Node.persist f (fun _ m => m.Trails W r reach ∧ m.Saved ∧
      m.toReplica = { f.toReplica with disk := m.disk })
      fun _ => False := by
  unfold Node.persist
  rw [Ensures.get_bind_iff]
  apply Ensures.ite
  · intro _
    apply Ensures.bind
    apply Ensures.onDisk
    · intro _ disk hrun
      have hdisk := (hworks.saveHardState _ _ h.disk).ok hrun
      exact ⟨h.of_standing hdisk rfl rfl, rfl, rfl⟩
    · intro e disk hrun
      exact (hworks.saveHardState _ _ h.disk).error hrun
  · intro hsame
    exact ⟨h, (not_not.mp hsame).symm, rfl⟩

/-! ## Entries -/

/-- What a leader sends of its log. -/
structure Quotes (r : Replica σ) (request : AppendRequest) : Prop where
  term : request.term = r.standing.currentTerm
  commit : request.leaderCommit = r.standing.commitIndex
  lends : r.log.Lends request.prevIndex request.entries
  prevTerm : r.log.termAt? request.prevIndex = some request.prevTerm

theorem Trails.merged (h : f.Trails W r reach) (hworks : Storage.Works W)
    {request : AppendRequest} (hquotes : Quotes r request)
    (hfits : f.log.matchesAt request.prevIndex request.prevTerm = true)
    {index : ℕ} {j : Journal τ}
    (hrun : Journal.appendFromLeader request.prevIndex request.entries
      f.toJournal = .ok index j) :
    Trails W r (max reach (request.prevIndex + request.entries.length))
      { f with
        toJournal := j
        standing :=
          Replica.followCommit f.standing request.leaderCommit index } := by
  obtain ⟨kept, early, fresh, hmeets⟩ := h.shares.gapless.exists_meets
    hquotes.lends.numbered (h.shares.gapless.le_last_of_matchesAt hfits)
  obtain ⟨rfl, hlog⟩ :=
    Journal.log_appendFromLeader h.shares.gapless hmeets hrun
  have hshares := h.shares.splice
    (h.boundary_le_commit.trans (Nat.le_max_left _ _)) hmeets hquotes.lends
    hquotes.prevTerm hfits
  have htold := h.told
  constructor
  · exact (Journal.leaves_appendFromLeader hworks.entries _ _ f.toJournal
      h.disk).ok hrun
  · exact h.role
  · exact h.term_le
  · change j.log.snapshotIndex ≤ f.standing.lastApplied
    rw [hlog]
    exact h.boundary_le
  · exact h.applied_le.trans (Nat.le_max_left _ _)
  · change _ ≤ max f.standing.commitIndex _
    rw [hquotes.commit]
    omega
  · change r.log.Shares j.log (max (max f.standing.commitIndex _) _)
    rw [hlog, hquotes.commit]
    have hreach : max (max f.standing.commitIndex (min r.standing.commitIndex
          (request.prevIndex + request.entries.length)))
        (max reach (request.prevIndex + request.entries.length)) =
          max (max f.standing.commitIndex reach)
            (request.prevIndex + request.entries.length) := by
      omega
    rw [hreach]
    exact hshares

/-- How far the leader has been told once it gets the reply. -/
def toldBy (request : AppendRequest) (reply : AppendReply) (reach : ℕ) : ℕ :=
  if reply.success then max reach (request.prevIndex + request.entries.length)
  else reach

/-- The answer to a request is true of the node that gives it. -/
structure Replies (W : τ → Prop) (r : Replica σ) (reach : ℕ)
    (request : AppendRequest) (reply : AppendReply) (f : Node τ) : Prop where
  term_le : reply.term ≤ r.standing.currentTerm
  refused : reply.success = false → reach < request.prevIndex
  trails : f.Trails W r (toldBy request reply reach)

theorem Trails.ensures_answerAppend (h : f.Trails W r reach)
    (hworks : Storage.Works W) {request : AppendRequest}
    (hquotes : Quotes r request)
    (hterm : request.term = f.standing.currentTerm) :
    Ensures (onReplica (Replica.answerAppend request)) f
      (Replies W r reach request) fun _ => False := by
  have hfollowed := h.followed hterm.le request.leader
  apply (Node.ensures_answerAppend hterm).mono
  · rintro reply m ⟨hcurrent, hm⟩
    constructor
    · exact hcurrent.trans_le h.term_le
    · intro hrefused
      by_contra hbefore
      have hfits := h.shares.matchesAt
        ((not_lt.mp hbefore).trans (Nat.le_max_right _ _)) hquotes.prevTerm
      rcases hm with ⟨-, hdiffers, -⟩ | ⟨htaken, -⟩
      · exact absurd (hfits.symm.trans hdiffers) (by simp)
      · exact absurd (htaken.symm.trans hrefused) (by simp)
    · unfold toldBy
      rcases hm with ⟨hrefused, -, rfl⟩ | ⟨htaken, hfits, index, j, hrun, rfl⟩
      · rw [hrefused]
        exact hfollowed
      · rw [htaken]
        exact hfollowed.merged hworks hquotes hfits hrun
  · rintro m ⟨-, e, j, hrun, -⟩
    exact (Journal.leaves_appendFromLeader hworks.entries _ _ f.toJournal
      h.disk).error hrun

theorem Trails.ensures_settleAppend (h : f.Trails W r reach)
    (hworks : Storage.Works W) (before : Standing) (term : ℕ)
    (reply : AppendReply) :
    Ensures (settleAppend before term reply) f
      (fun answer m => answer = reply ∧ m.Trails W r reach)
      fun _ => False := by
  have hfinish : ∀ m : Node τ, m.Trails W r reach → m.Saved →
      Ensures (do
        modify Node.refreshed
        Node.applyCommitted
        return reply : Act τ AppendReply) m
        (fun answer m => answer = reply ∧ m.Trails W r reach)
        fun _ => False := by
    intro m hm hsaved
    have hrefreshed : m.refreshed.Trails W r reach :=
      hm.of_standing hm.disk rfl rfl
    rw [Ensures.modify_bind_iff]
    apply (hrefreshed.applyCommitted hworks hsaved).andThen_of_succeeds
    intro _ m' hm'
    exact ⟨rfl, hm'⟩
  unfold settleAppend
  apply (h.ensures_persist hworks).andThen_of_succeeds
  rintro - m ⟨hm, hsaved, -⟩
  have haside := aside_afterRoleChange m before.role
  rw [Ensures.modify_bind_iff]
  apply Ensures.ite
  · intro _
    rw [Ensures.modify_bind_iff]
    have hwaits : Aside m
        ((m.afterRoleChange before.role).emit .resetElectionTimer) :=
      haside.trans (aside_emit trivial)
    exact hfinish _ (hm.aside hwaits) (hwaits.saved hsaved)
  · intro _
    exact hfinish _ (hm.aside haside) (haside.saved hsaved)

theorem Trails.ensures_respondAppend (h : f.Trails W r reach)
    (hworks : Storage.Works W) {request : AppendRequest}
    (hquotes : Quotes r request)
    (hterm : request.term = f.standing.currentTerm) (before : Standing) :
    Ensures (respondAppend before request) f (Replies W r reach request)
      fun _ => False := by
  unfold respondAppend
  apply (h.ensures_answerAppend hworks hquotes hterm).andThen_of_succeeds
  intro reply m hm
  apply (hm.trails.ensures_settleAppend hworks before request.term reply).mono
  · rintro _ m' ⟨rfl, hm'⟩
    exact ⟨hm.term_le, hm.refused, hm'⟩
  · exact fun _ hfalse => hfalse

/-- Whatever a leader quotes of its log, the node does not fail, and what it
answers is true. -/
theorem Trails.ensures_handleAppendRequest (h : f.Trails W r reach)
    (hworks : Storage.Works W) {request : AppendRequest}
    (hquotes : Quotes r request) :
    Ensures (handleAppendRequest request) f (Replies W r reach request)
      fun _ => False := by
  unfold handleAppendRequest
  rw [Ensures.get_bind_iff]
  apply Ensures.ite
  · intro _
    have hobserved := h.observe
    rw [← hquotes.term] at hobserved
    rw [Ensures.modify_bind_iff]
    apply (hobserved.ensures_persist hworks).andThen_of_succeeds
    rintro - m ⟨hm, -, hreplica⟩
    have hterm : m.standing.currentTerm = request.term := by
      have hstanding := congrArg Replica.standing hreplica
      rw [hstanding]
      exact currentTerm_observeTerm (hquotes.term ▸ h.term_le)
    exact hm.ensures_respondAppend hworks hquotes hterm.symm f.standing
  · intro hnew
    have hterm : request.term = f.standing.currentTerm :=
      le_antisymm (not_lt.mp hnew) (hquotes.term ▸ h.term_le)
    exact h.ensures_respondAppend hworks hquotes hterm f.standing

/-! ## Snapshots -/

/-- A snapshot of what a leader's log begins with, which a consumer can restore. -/
structure Encloses (r : Replica σ) (request : InstallRequest) : Prop where
  term : request.term = r.standing.currentTerm
  pos : 0 < request.lastIncludedIndex
  lastTerm : r.log.termAt? request.lastIncludedIndex =
    some request.lastIncludedTerm
  readable : (Record.decode? request.data).isSome

/-- The snapshot becomes the base of the log. -/
theorem Trails.rebased (h : f.Trails W r reach) (hworks : Storage.Works W)
    {request : InstallRequest} (hencloses : Encloses r request)
    (hnew : f.standing.lastApplied < request.lastIncludedIndex) {disk : τ}
    (hdisk : W disk) {j : Journal τ}
    (hrun : Journal.rebase request.lastIncludedIndex request.lastIncludedTerm
      ⟨f.log, disk⟩ = .ok () j) (recorder : Recorder) :
    (f.rebased request j recorder).Trails W r
      (max reach request.lastIncludedIndex) := by
  have hlt := h.boundary_le.trans_lt hnew
  have htold := h.told
  have hreach : max (max f.standing.commitIndex request.lastIncludedIndex)
      (max reach request.lastIncludedIndex) =
        max (max f.standing.commitIndex reach) request.lastIncludedIndex := by
    omega
  have hlog := Journal.log_rebase (j := ⟨f.log, disk⟩) hlt hrun
  obtain ⟨-, hboundary⟩ := Journal.gapless_rebase (j := ⟨f.log, disk⟩)
    h.shares.gapless hlt hrun
  constructor
  · exact (Journal.leaves_rebase hworks.entries _ _ ⟨f.log, disk⟩ hdisk).ok hrun
  · exact h.role
  · exact h.term_le
  · exact hboundary.le
  · exact Nat.le_max_right _ _
  · change _ ≤ max f.standing.commitIndex request.lastIncludedIndex
    omega
  · change r.log.Shares j.log (max (max f.standing.commitIndex
      request.lastIncludedIndex) (max reach request.lastIncludedIndex))
    rw [hreach]
    rcases hlog with ⟨hagrees, hlog⟩ | ⟨hdiffers, hlog⟩
    · rw [hlog]
      exact (h.shares.extend hlt hencloses.lastTerm hagrees).dropThrough hlt
        (Nat.le_max_right _ _) hagrees
    · rw [hlog]
      have hbeyond : max f.standing.commitIndex reach <
          request.lastIncludedIndex := by
        by_contra hle
        have hfits := h.shares.matchesAt (not_lt.mp hle) hencloses.lastTerm
        rcases Log.matchesAt_iff.mp hfits with hcovered | hagrees
        · omega
        · exact hdiffers hagrees
      rw [max_eq_right hbeyond.le]
      exact Log.shares_base hencloses.pos hencloses.lastTerm

theorem Trails.ensures_installSnapshot (h : f.Trails W r reach)
    (hworks : Storage.Works W) {request : InstallRequest}
    (hencloses : Encloses r request)
    (hnew : f.standing.lastApplied < request.lastIncludedIndex)
    (hsaved : f.Saved) :
    Ensures (installSnapshot request) f
      (fun _ m => m.Trails W r (max reach request.lastIncludedIndex))
      fun _ => False := by
  obtain ⟨record, hrecord⟩ := Option.isSome_iff_exists.mp hencloses.readable
  rw [installSnapshot_eq]
  apply Ensures.bind
  apply Ensures.onDisk
  · intro _ disk hrun
    have hdisk := (hworks.saveSnapshot _ _ h.disk).ok hrun
    apply Ensures.bind
    apply Ensures.onJournal
    · intro _ j hrebased
      unfold adoptSnapshot Recorder.restore
      rw [Ensures.get_bind_iff, hrecord]
      have hm := h.rebased hworks hencloses hnew hdisk hrebased
      exact (hm _).applyCommitted hworks hsaved
    · intro e j hfailed
      exact (Journal.leaves_rebase hworks.entries _ _ ⟨f.log, disk⟩ hdisk).error
        hfailed
  · intro e disk hfailed
    exact (hworks.saveSnapshot _ _ h.disk).error hfailed

/-- Whatever snapshot a leader sends of its log, the node has it in the end. -/
theorem Trails.ensures_handleInstallRequest (h : f.Trails W r reach)
    (hworks : Storage.Works W) {request : InstallRequest}
    (hencloses : Encloses r request) :
    Ensures (handleInstallRequest request) f
      (fun reply m => reply.success = true ∧
        reply.term ≤ r.standing.currentTerm ∧
        m.Trails W r (max reach request.lastIncludedIndex))
      fun _ => False := by
  have hle : f.standing.currentTerm ≤ request.term :=
    hencloses.term ▸ h.term_le
  have hobserved := h.observe
  rw [← hencloses.term] at hobserved
  have hfollowed := hobserved.followed (le_observeTerm _ _) request.leader
  unfold handleInstallRequest
  rw [Ensures.get_bind_iff]
  apply Ensures.ite
  · intro hlt
    exact absurd hle hlt.not_ge
  · intro _
    rw [Ensures.modify_bind_iff]
    apply (hfollowed.ensures_persist hworks).andThen_of_succeeds
    rintro - m ⟨hm, hsaved, -⟩
    have hwaits : Aside m
        ((m.afterRoleChange f.standing.role).emit .resetElectionTimer) :=
      (aside_afterRoleChange m f.standing.role).trans (aside_emit trivial)
    have hm := hm.aside hwaits
    have hsaved := hwaits.saved hsaved
    rw [Ensures.modify_bind_iff, Ensures.get_bind_iff]
    apply Ensures.ite
    · intro hnew
      apply (hm.ensures_installSnapshot hworks hencloses hnew
        hsaved).andThen_of_succeeds
      intro _ m' hm'
      exact ⟨rfl, hm'.term_le, hm'⟩
    · intro hold
      exact ⟨rfl, hm.term_le, hm.told_of_le (not_lt.mp hold)⟩

end Node

end Consensus
