import Consensus.Proofs.Node.Heeding
import Consensus.Proofs.World.Recovery

/-!
# What a restart forgets

A node that starts again reads its log and its snapshot, and asks its consumer how
far it got.  A fresh consumer got nowhere, and a durable one no further than the
last command.  The membership is read off the log up to there only, so changes that
were applied later are not in force until they are committed once more.

How much is forgotten is determined here: the members are the old ones unless the
last change that was applied beyond that point names others.
-/

namespace Consensus

namespace Node

variable {n m : Node Fallible} {event : Event} {settings : Settings}
  {recorder : Recorder}

/-! ## Heeding the log across restarts -/

/-- What suits a node is harmless. -/
theorem Level.isHarmless_of_suits (hn : n.Level) (hsuits : event.Suits n) :
    event.IsHarmless n := by
  apply hn.isHarmless
  cases event with
  | appendRequest ticket request =>
      have hrequest : request.Suits n := hsuits
      constructor
      · exact hrequest.numbered
      · intro entry hentry hle held hheld
        have hrange := hn.gapless.range_of_get? hheld
        apply hrequest.agrees entry hentry hle
        rw [Log.termAt?_eq_get? hrange.1, hheld]
        rfl
  | _ => trivial

/-- The settings that a node has are valid, and its membership is the one that log,
snapshot and settings dictate. -/
structure Constituted (n : Node Fallible) : Prop where
  valid : n.settings.validate = .ok ()
  dutiful : n.Dutiful n.settings

theorem constituted_of_recover {d d' : Durable Fallible}
    (hrun : recover settings d = .ok n d') : n.Constituted := by
  have hresumes := (ensures_recover settings d).ok hrun
  constructor
  · rw [hresumes.settings]
    exact hresumes.valid
  · exact (dutiful_of_recover hrun).own

theorem Reached.constituted (h : Reached n) : n.Constituted := by
  induction h with
  | started hfresh hrun => exact constituted_of_recover hrun
  | @handled event n n' hn hsuits hrun ih =>
      have hcourse := (handle_runs hn.fit.saved event).ok hrun
      have hdone := hcourse.dutiful ih.dutiful
        (ih.dutiful.level.isHarmless_of_suits hsuits)
      constructor
      · change n'.settings.validate = .ok ()
        rw [hdone.heeds.settings]
        exact ih.valid
      · exact hdone.drained.own
  | restarted hn hreplaces hrun => exact constituted_of_recover hrun
  | resumed hn hsuits hfailed hwhole hreplaces hrun =>
      exact constituted_of_recover hrun

/-! ## Restarts -/

/-- A consumer that may be used again is not ahead of the node. -/
theorem Reached.lastApplied_le (hn : n.Reached)
    (hreplaces : recorder.Replaces n.recorder) :
    recorder.lastApplied ≤ n.standing.lastApplied :=
  Node.lastApplied_le (hreplaces.imp_left And.left) hn.fit.record

/-- A node that stopped between two events starts again, and goes on from its
snapshot or from where its consumer is. -/
theorem Reached.exists_restart (hn : n.Reached)
    (hreplaces : recorder.Replaces n.recorder)
    (hwords : ∀ snapshot, n.disk.stored.snapshot = some snapshot →
      snapshot.index < wordBound) :
    ∃ (m : Node Fallible) (d : Durable Fallible),
      recover n.settings ⟨⟨n.disk.stored, []⟩, recorder⟩ = .ok m d ∧
        m.standing.lastApplied = max n.log.snapshotIndex recorder.lastApplied ∧
        m.membership = .dictated
          (n.disk.stored.base (.ofList n.settings.members)) n.log
          m.standing.lastApplied := by
  have hfit := hn.fit
  have hstored : n.disk.stored.log = n.log := hfit.log_stored
  have hreach : recorder.lastApplied ≤ n.disk.stored.log.lastIndex := by
    rw [hstored]
    exact (hn.lastApplied_le hreplaces).trans hfit.applied_le_last
  have hmay : MayStart n.settings
      (⟨⟨n.disk.stored, []⟩, recorder⟩ : Durable Fallible) :=
    ⟨hn.constituted.valid, hfit.sane, hreach, hwords⟩
  obtain ⟨m, d, hrun, hresumes⟩ := exists_recover hmay
  have hlog : m.log = n.log := hresumes.log.trans hstored
  refine ⟨m, d, hrun, ?_, ?_⟩
  · have happlied := hresumes.caughtUp.applied_eq
    rw [happlied]
    exact congrArg (max · _) hfit.boundary
  · rw [hresumes.membership, hlog, hresumes.settings,
      Membership.recover_eq_dictated hn.constituted.dutiful.level.gapless]
    rfl

/-- The only member of a cluster, as it starts. -/
def founder : Node Fallible := fresh {} ⟨{}, {}⟩

/-- The member is elected. -/
def founded : Node Fallible :=
  { (outcome (handle .campaign) founder).2 with effects := [] }

/-- The member has added a server. -/
def enlarged : Node Fallible :=
  { (outcome (handle (.change 7 (.add 2))) founded).2 with effects := [] }

theorem reached_enlarged : enlarged.Reached := by
  have hstart : recover {} ⟨⟨{}, []⟩, {}⟩ =
      .ok founder ⟨⟨{}, []⟩, {}⟩ := rfl
  have hfounder : founder.Reached := .started rfl hstart
  have hfounded : founded.Reached := by
    have hsuits : Event.Suits .campaign founder := trivial
    exact hfounder.handled hsuits (eq_ok_of_outcome (by decide +kernel))
  have hsuits : Event.Suits (.change 7 (.add 2)) founded := trivial
  exact hfounded.handled hsuits (eq_ok_of_outcome (by decide +kernel))

end Node

end Consensus
