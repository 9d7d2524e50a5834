import Consensus.Proofs.Ensures
import Consensus.Proofs.Node.Aside
import Consensus.Proofs.Node.Course

/-!
# Computations that do deeds

A part of a handler does one deed after another, and where it fails it is a deed
that failed.  All that is needed from the node is that term and vote are stored
between events, which every deed keeps.
-/

namespace Consensus

namespace Ensures

variable {σ α : Type} {n : Node σ} {Q : α → Node σ → Prop} {E : Node σ → Prop}

theorem onJournal {act : Journal.Act σ α}
    (hok : ∀ a j, act n.toJournal = .ok a j → Q a { n with toJournal := j })
    (herror : ∀ e j, act n.toJournal = .error e j →
      E { n with toJournal := j }) :
    Ensures (Node.onJournal act) n Q E :=
  Ensures.onPart (Ensures.onPart (of_runs hok herror))

theorem onDisk {act : EStateM Error σ α}
    (hok : ∀ a disk, act n.disk = .ok a disk → Q a { n with disk := disk })
    (herror : ∀ e disk, act n.disk = .error e disk →
      E { n with disk := disk }) :
    Ensures (Node.onDisk act) n Q E :=
  Ensures.onPart (Ensures.onPart (Ensures.onPart (of_runs hok herror)))

/-- Looking at the disk changes nothing. -/
theorem inspect {look : σ → Except Error α}
    (hok : ∀ a, look n.disk = .ok a → Q a n)
    (herror : ∀ e, look n.disk = .error e → E n) :
    Ensures (Node.onDisk (Storage.inspect look)) n Q E := by
  refine onDisk (fun a disk hrun => ?_) fun e disk hrun => ?_
  · unfold Storage.inspect at hrun
    split at hrun
    · next hlook =>
      cases hrun
      exact hok _ hlook
    · exact absurd hrun (by simp)
  · unfold Storage.inspect at hrun
    split at hrun
    · exact absurd hrun (by simp)
    · next hlook =>
      cases hrun
      exact herror _ hlook

end Ensures

namespace Node

variable {σ α β : Type} {n m n' : Node σ} {event : Event}

/-! ## Term and vote are stored -/

/-- Term and vote are stored as they are. -/
def Saved (n : Node σ) : Prop := n.persisted = n.standing.hardState

theorem Aside.saved (h : Aside n n') (hn : n.Saved) : n'.Saved := by
  unfold Saved
  rw [h.persisted, h.standing]
  exact hn

theorem Enacted.saved {index : ℕ} (h : Enacted index n n') (hn : n.Saved) :
    n'.Saved := by
  unfold Saved
  rw [h.persisted, h.standing]
  exact hn

theorem saved_turned (n : Node σ) (s : Standing) (disk : σ) :
    (n.turned s disk).Saved :=
  (aside_afterRoleChange _ _).saved rfl

theorem Commits.saved (h : Commits event n n') (hn : n.Saved) : n'.Saved := by
  cases h with
  | committed => exact hn

variable [Storage σ] [Counting]

theorem Opens.saved (h : Opens event n n') (hn : n.Saved) : n'.Saved := by
  cases h with
  | turned => exact saved_turned _ _ _
  | crowned =>
      have hleads : (n.mapStanding (·.becomeLeader n.self)).Saved := hn
      exact (aside_syncPeers _ _ _).saved
        ((aside_stopReplication _).saved hleads)
  | proposed => exact (aside_syncPeers _ _ _).saved hn
  | waited => exact hn
  | counted => exact hn
  | noted => exact hn
  | accepted => exact hn
  | merged => exact hn
  | refreshed => exact hn
  | rebased => exact hn
  | recorded => exact hn

theorem Closes.saved (h : Closes event n n') (hn : n.Saved) : n'.Saved := by
  cases h with
  | applied => exact (enacted_applyEntry _ _ _).saved hn
  | retired => exact saved_turned _ _ _
  | announced => exact hn
  | compacted => exact hn
  | dispatched => exact hn
  | campaigned => exact hn
  | answered => exact hn

theorem Course.saved (h : Course event n n') (hn : n.Saved) : n'.Saved :=
  h.keeps (fun _ _ h => h.saved) (fun _ _ h => h.saved)
    (fun _ _ h => h.saved) hn

/-! ## Log and disk -/

/-- Following an event up, a node touches its log and its disk only to compact
them. -/
theorem Closes.journal_or_compacts (h : Closes event n n') :
    n'.toJournal = n.toJournal ∨ ∃ term disk, n.Overflows term ∧
      Storage.saveSnapshot (n.ownSnapshot term) n.disk = .ok () disk ∧
      Journal.compactTo n.standing.lastApplied term ⟨n.log, disk⟩ =
        .ok () n'.toJournal := by
  cases h with
  | applied => exact Or.inl (enacted_applyEntry n _ _).journal
  | retired => exact Or.inl (journal_turned _ _ _)
  | compacted hlong hsaved hrun => exact Or.inr ⟨_, _, hlong, hsaved, hrun⟩
  | announced | dispatched | campaigned | answered => exact Or.inl rfl

/-! ## Chaining deeds -/

/-- The computation gets to nowhere but the states named, or fails from one of
them by a deed that fails. -/
def Does (event : Event) (reached : Node σ → Prop) (act : Act σ α) (n : Node σ)
    (Q : α → Node σ → Prop) : Prop :=
  Ensures act n (fun a n' => reached n' ∧ Q a n')
    fun n' => ∃ m, reached m ∧ Fails event m n'

section

variable {reached reached' : Node σ → Prop} {act : Act σ α} {f : α → Act σ β}
  {Q Q' : α → Node σ → Prop} {R : β → Node σ → Prop}

theorem Does.mono (h : Does event reached act n Q)
    (hreached : ∀ m, reached m → reached' m) :
    Does event reached' act n Q :=
  Ensures.mono h (fun _ n' hn' => ⟨hreached n' hn'.1, hn'.2⟩)
    fun _ ⟨m, hm, hfails⟩ => ⟨m, hreached m hm, hfails⟩

theorem Does.imp (h : Does event reached act n Q)
    (hQ : ∀ a m, reached m → Q a m → Q' a m) :
    Does event reached act n Q' :=
  Ensures.mono h (fun a n' hn' => ⟨hn'.1, hQ a n' hn'.1 hn'.2⟩)
    fun _ hfails => hfails

theorem Does.of_get {f : Node σ → Act σ β} (h : Does event reached (f n) n R) :
    Does event reached (get >>= f) n R :=
  h

theorem Does.of_set {f : PUnit → Act σ β} (h : Does event reached (f ⟨⟩) m R) :
    Does event reached (set m >>= f) n R :=
  h

theorem Does.of_modify {f : PUnit → Act σ β} {change : Node σ → Node σ}
    (h : Does event reached (f ⟨⟩) (change n) R) :
    Does event reached (modify change >>= f) n R :=
  h

theorem Does.ite {c : Prop} [Decidable c] {act' : Act σ α}
    (hpos : c → Does event reached act n Q)
    (hneg : ¬ c → Does event reached act' n Q) :
    Does event reached (if c then act else act') n Q :=
  Ensures.ite hpos hneg

/-- One computation after another. -/
theorem Does.andThen (h : Does event reached act n Q)
    (hreached : ∀ m, reached m → reached' m)
    (hrest : ∀ a m, reached m → Q a m → Does event reached' (f a) m R) :
    Does event reached' (act >>= f) n R :=
  Ensures.bind (Ensures.mono h (fun a m hm => hrest a m hm.1 hm.2)
    fun _ ⟨m, hm, hfails⟩ => ⟨m, hreached m hm, hfails⟩)

end

/-- Nothing was caused since the failing deed began. -/
theorem fails_of_breaks (hbreaks : n.Breaks event n'.disk)
    (hsame : n' = { n with
      toReplica := n'.toReplica
      persisted := n'.persisted }) : Fails event n n' where
  breaks := hbreaks
  recorder := by rw [hsame]
  effects := by rw [hsame]
  dues ticket := by
    rw [hsame]
    exact dues_of_same rfl rfl rfl

/-! ## Turning -/

/-- Term and vote are stored on the way to standing elsewhere. -/
theorem ensures_persist_turn {s s' : Standing} (hturns : n.Turns event s')
    (hhard : s'.hardState = s.hardState) :
    Ensures persist { n with standing := s }
      (fun _ m => ∃ disk, n.Stores s.hardState disk ∧
        m = { n with standing := s, disk := disk, persisted := s.hardState })
      (Fails event n) := by
  unfold persist
  rw [Ensures.get_bind_iff]
  refine Ensures.ite (fun hchanged => ?_) fun hsame => ?_
  · refine Ensures.bind (Ensures.onDisk (fun _ disk hrun => ?_)
      fun e disk hrun => ?_)
    · exact ⟨disk, .written hchanged hrun, rfl⟩
    · have hsaving : Storage.saveHardState s'.hardState n.disk =
          .error e disk := by
        rw [hhard]
        exact hrun
      refine fails_of_breaks (.turning hturns ?_ hsaving) rfl
      rw [hhard]
      exact hchanged
  · have hsame : s.hardState = n.persisted := not_not.mp hsame
    refine ⟨n.disk, .held hsame, ?_⟩
    rw [hsame]

omit [Counting] in
/-- Nothing is written while term and vote stay. -/
theorem persist_of_saved (hn : n.Saved) : persist n = .ok () n := by
  unfold persist
  change (ite _ _ _ : Act σ Unit) n = _
  rw [if_neg (not_not.mpr hn.symm)]
  rfl

/-- A newer term in a reply. -/
theorem does_stepDown {term : ℕ} (hreply : event.replyTerm? = some term)
    (hterm : n.standing.currentTerm < term) :
    Does event (Opening event n) (stepDown term) n fun _ _ => True := by
  have hturns : n.Turns event (n.standing.becomeFollower term) :=
    .overtaken hreply hterm
  unfold stepDown
  refine Does.of_get (Does.of_modify ?_)
  refine Ensures.andThen ((ensures_persist_turn hturns rfl).mono (fun _ _ h => h)
    fun m hm => ⟨n, .refl, hm⟩) ?_
  rintro - m ⟨disk, hstores, rfl⟩
  exact ⟨.single (.turned hturns hstores), trivial⟩

/-! ## Applying, compacting and committing -/

/-- A leader that is no member any more writes nothing when it steps down. -/
theorem does_retire (hn : n.Saved) (hrole : n.standing.role = .leader)
    (hself : n.self ∉ n.membership.committed) :
    Does event (Closing event n) (stepDown n.standing.currentTerm)
      (n.mapStanding fun s => { s with leader := none })
      fun _ m => m = n.turned n.retiring n.disk := by
  have hhard : n.persisted = n.retiring.hardState := by
    rw [retiring_eq]
    exact hn
  have hturned : ({ n with standing := n.retiring } : Node σ).afterRoleChange
      n.standing.role = n.turned n.retiring n.disk := by
    rw [turned, ← hhard]
  unfold stepDown
  refine Does.of_get (Does.of_modify ?_)
  refine Ensures.bind_of_ok (persist_of_saved hhard) ?_
  have hstep : Closes event n (({ n with standing := n.retiring } :
      Node σ).afterRoleChange n.standing.role) := by
    rw [hturned]
    exact .retired hrole hself
  exact ⟨.single hstep, hturned⟩

theorem saved_of_closing (h : Closing event n n') (hn : n.Saved) : n'.Saved :=
  keeps_of_reflTransGen h (fun _ _ h => h.saved) hn

theorem does_applyNext (hn : n.Saved)
    (hmore : n.standing.lastApplied < n.standing.commitIndex) :
    Does event (Closing event n) applyNext n fun _ m =>
      m.standing.lastApplied = n.standing.lastApplied + 1 ∧
        m.standing.commitIndex = n.standing.commitIndex := by
  unfold applyNext
  refine Does.of_get ?_
  dsimp only
  cases hentry : n.log.get? (n.standing.lastApplied + 1) with
  | none => exact ⟨n, .refl, fails_of_breaks (.applying hmore hentry) rfl⟩
  | some entry =>
      have hstep : Closes event n
          (n.applyEntry entry (n.standing.lastApplied + 1)) :=
        .applied hmore hentry
      have hstanding := (enacted_applyEntry n entry
        (n.standing.lastApplied + 1)).standing
      refine Does.of_set (Does.of_get (Does.ite (fun hretires => ?_) fun _ => ?_))
      · refine Does.of_set ?_
        refine ((does_retire (hstep.saved hn) hretires.1 hretires.2).mono
          fun m hm => .head hstep hm).imp fun _ m _ hm => ?_
        rw [hm, standing_turned, retiring_eq, hstanding]
        exact ⟨rfl, rfl⟩
      · refine ⟨.single hstep, ?_, ?_⟩ <;> rw [hstanding]

theorem does_applyMany (hn : n.Saved) {count : ℕ}
    (hcount : count ≤ n.standing.commitIndex - n.standing.lastApplied) :
    Does event (Closing event n) (applyMany count) n fun _ m =>
      m.standing.lastApplied = n.standing.lastApplied + count ∧
        m.standing.commitIndex = n.standing.commitIndex := by
  induction count generalizing n with
  | zero => exact ⟨.refl, rfl, rfl⟩
  | succ count ih =>
      refine (does_applyNext hn (by omega)).andThen (fun _ hm => hm) ?_
      rintro - m hm ⟨happlied, hcommit⟩
      refine ((ih (saved_of_closing hm hn) (by omega)).mono
        fun _ hm' => hm.trans hm').imp fun _ m' _ hm' => ?_
      omega

theorem does_compactIfLong (n : Node σ) :
    Does event (Closing event n) compactIfLong n fun _ _ => True := by
  unfold compactIfLong
  refine Does.of_get (Does.ite (fun _ => ⟨.refl, trivial⟩) fun hdue => ?_)
  have hlong : n.settings.compactionThreshold < n.log.size :=
    not_le.mp fun h => hdue (Or.inl h)
  have hnew : n.log.snapshotIndex < n.standing.lastApplied :=
    not_le.mp fun h => hdue (Or.inr h)
  cases hterm : n.log.termAt? n.standing.lastApplied with
  | none =>
      exact ⟨n, .refl, fails_of_breaks (.measuring hlong hnew hterm) rfl⟩
  | some term =>
      have hover : n.Overflows term := ⟨hlong, hnew, hterm⟩
      refine Ensures.bind (Ensures.onDisk (fun _ disk hsaved => ?_)
        fun e disk hrun => ?_)
      · refine Ensures.onJournal (fun _ j hrun => ?_) fun e j hrun => ?_
        · exact ⟨.single (.compacted hover hsaved hrun), trivial⟩
        · exact ⟨n, .refl, fails_of_breaks (.compacting hover hsaved hrun)
            rfl⟩
      · exact ⟨n, .refl, fails_of_breaks (.saving hover hrun) rfl⟩

theorem does_applyCommitted (hn : n.Saved) :
    Does event (Closing event n) applyCommitted n fun _ _ => True := by
  unfold applyCommitted
  refine Does.of_get ((does_applyMany hn le_rfl).andThen (fun _ hm => hm) ?_)
  rintro - m hm ⟨happlied, hcommit⟩
  refine Does.of_modify ((does_compactIfLong _).mono fun m' hm' => ?_)
  exact (hm.tail (.announced (by omega))).trans hm'

theorem does_advanceCommit (hn : n.Saved) (hevent : event.leader? = none) :
    Does event (Settling event n) advanceCommit n fun _ _ => True := by
  unfold advanceCommit
  refine Does.of_get (Does.ite (fun _ => ⟨Closing.settling .refl, trivial⟩)
    fun hrole => ?_)
  refine Does.ite (fun _ => ⟨Closing.settling .refl, trivial⟩) fun hmore => ?_
  have hcommits : Commits event n
      (n.mapStanding fun s => { s with commitIndex := n.majorityIndex }) :=
    .committed hevent (not_not.mp hrole)
      (not_le.mp fun h => hmore (Or.inl h))
      (not_not.mp fun h => hmore (Or.inr h))
  refine Does.of_set ((does_applyCommitted (hcommits.saved hn)).mono ?_)
  exact fun m hm => ⟨_, .single hcommits, hm⟩

/-! ## Sending and answering -/

theorem does_replicateTo (peer : ℕ) (hrole : n.standing.role = .leader) :
    Does event (Closing event n) (replicateTo peer) n
      fun _ m => m.standing.role = .leader := by
  unfold replicateTo
  refine Does.of_get ?_
  cases hpeer : n.peers.get? peer with
  | none => exact ⟨.refl, hrole⟩
  | some progress =>
      refine Does.ite (fun _ => ⟨.refl, hrole⟩) fun hidle => ?_
      have hidle : progress.inFlight = false := Bool.eq_false_of_not_eq_true hidle
      refine Does.ite (fun hcompacted => ?_) fun hheld => ?_
      · refine Ensures.bind (Ensures.inspect (fun found hload => ?_)
          fun e hload => ?_)
        · cases found with
          | none =>
              refine ⟨n, .refl, fails_of_breaks
                (.sending hrole hpeer fun _ _ hsends => ?_) rfl⟩
              cases hsends with
              | snapshot _ hfound => exact absurd (hload.symm.trans hfound) (by simp)
              | entries hheld => omega
          | some snapshot =>
              exact ⟨.single (.dispatched hrole hpeer hidle
                (.snapshot hcompacted hload)), hrole⟩
        · refine ⟨n, .refl, fails_of_breaks
            (.sending hrole hpeer fun _ _ hsends => ?_) rfl⟩
          cases hsends with
          | snapshot _ hfound => exact absurd (hload.symm.trans hfound) (by simp)
          | entries hheld => omega
      · dsimp only
        cases hterm : n.log.termAt? (Counting.minus
            (min progress.nextIndex (Counting.plus n.log.lastIndex 1)) 1) with
        | none =>
            refine ⟨n, .refl, fails_of_breaks
              (.sending hrole hpeer fun _ _ hsends => ?_) rfl⟩
            cases hsends with
            | snapshot hcompacted => omega
            | entries _ hfound => exact absurd (hterm.symm.trans hfound) (by simp)
        | some prevTerm =>
            exact ⟨.single (.dispatched hrole hpeer hidle
              (.entries (not_le.mp hheld) hterm)), hrole⟩

theorem does_replicateAll (n : Node σ) :
    Does event (Closing event n) replicateAll n fun _ _ => True := by
  unfold replicateAll
  refine Does.of_get (Does.ite (fun _ => ⟨.refl, trivial⟩) fun hrole => ?_)
  refine (Ensures.forM (I := fun m => Closing event n m ∧
    m.standing.role = .leader) ⟨.refl, not_not.mp hrole⟩ fun peer m hm => ?_).mono
      (fun _ m hm => ⟨hm.1, trivial⟩) fun _ hfails => hfails
  exact (does_replicateTo peer hm.2).mono fun _ hm' => hm.1.trans hm'

theorem does_reply {ticket : ℕ} {answer : Answer}
    (hanswers : n.Answers event ticket answer) :
    Does event (Closing event n) (reply ticket answer) n fun _ _ => True :=
  ⟨.single (.answered hanswers), trivial⟩

/-- A leader that appended something commits what it can and sends the rest. -/
theorem does_spread (hn : n.Saved) (hevent : event.leader? = none) :
    Does event (Settling event n) (advanceCommit >>= fun _ => replicateAll) n
      fun _ _ => True :=
  (does_advanceCommit hn hevent).andThen (fun _ hm => hm) fun _ m hm _ =>
    (does_replicateAll m).mono fun _ hm' => hm.closing hm'

end Node

end Consensus
