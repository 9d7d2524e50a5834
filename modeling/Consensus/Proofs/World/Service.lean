import Consensus.Proofs.Node.Feeding
import Consensus.Proofs.Node.Recovering

/-!
# Commands reach a consumer exactly once

A node serves one consumer that outlives its stops.  It may follow leaders, lead, be
sent snapshots, compact its log, and stop and start between any two events.  After a
stop it goes on from what the consumer or the snapshot on the disk has, which may be
less than what it had applied: the last entries may carry no command, and then nobody
remembers them.

There is a history of all entries to each moment, which only changes after what is
applied unless a snapshot is installed.  The consumer is given each command in it once,
in order, and is never given one that it has.
-/

namespace Consensus

open Storage (Faithful)

/-! ## Starting -/

namespace Node

variable {σ : Type} [Storage σ] [Faithful σ] {n n' m : Node σ} {event : Event}
  {all all' : List Entry}

/-- A node that starts goes on from what its consumer or its disk has. -/
theorem feeds_of_recover {settings : Settings} {d d' : Durable σ} {log : Log}
    (hnumbered : Numbered all) (hentries : log.entries = all.drop log.snapshotIndex)
    (hstored : (Faithful.stored d.disk).Upholds all log)
    (hrecord : d.recorder.record = recordAfter (all.take d.recorder.lastApplied))
    (hreach : max log.snapshotIndex d.recorder.lastApplied ≤ all.length)
    (hrun : recover settings d = .ok m d') :
    Feeds all m ∧
      m.standing.lastApplied = max log.snapshotIndex d.recorder.lastApplied ∧
      m.recorder.applyCalls = d.recorder.applyCalls ∧
      m.recorder.durable = d.recorder.durable := by
  have hresumes := (ensures_recover settings d).ok hrun
  have hnew := (ensures_recover_isNew settings d).ok hrun
  have hread : m.log.entries = log.entries ∧ m.log.snapshotIndex = log.snapshotIndex := by
    have hgapless : NumberedFrom log.snapshotIndex log.entries := by
      rw [hentries]
      exact hnumbered.drop log.snapshotIndex
    rw [hresumes.log, Stored.log, hstored.boundary, hstored.entries,
      hgapless.takeWhile_index_le, Nat.sub_self]
    exact ⟨rfl, rfl⟩
  have happlied := hresumes.caughtUp.applied_eq
  rw [hstored.boundary] at happlied
  have hcaught : m.recorder.record = recordAfter (all.take m.standing.lastApplied) ∧
      m.recorder.applyCalls = d.recorder.applyCalls ∧
      m.recorder.durable = d.recorder.durable := by
    have hcaughtUp := hresumes.caughtUp
    generalize m.recorder = recorder at *
    generalize m.standing.lastApplied = applied at *
    cases hcaughtUp with
    | ahead => exact ⟨hrecord, rfl, rfl⟩
    | restored hsnapshot hlt hrestored =>
        rw [hstored.data _ hsnapshot] at hrestored
        rw [Recorder.eq_of_restore hrestored]
        exact ⟨rfl, rfl, rfl⟩
  refine ⟨?_, happlied, hcaught.2⟩
  constructor
  · constructor
    · exact hnumbered
    · rw [hread.1, hread.2, hentries]
    · rw [happlied]
      exact hreach
    · exact hcaught.1
  · exact hnew.level
  · apply hstored.of_snapshot
    · rw [hresumes.disk]
    · rw [hresumes.disk]
    · exact hread.2
    · rfl

/-- Between two events: the node waits, with all that is committed applied, and its
consumer is one that outlives it. -/
structure Provides (all : List Entry) (n : Node σ) : Prop extends Feeds all n where
  saved : n.Saved
  idle : n.Idle
  effects : n.effects = []
  durable : n.recorder.durable = true

theorem provides_of_recover {settings : Settings} {d d' : Durable σ}
    (hfeeds : Feeds all m) (hdurable : m.recorder.durable = true)
    (hrun : recover settings d = .ok m d') : Provides all m := by
  have hresumes := (ensures_recover settings d).ok hrun
  have hnew := (ensures_recover_isNew settings d).ok hrun
  constructor
  · exact hfeeds
  · exact hnew.saved
  · unfold Idle
    rw [hresumes.standing]
    exact le_rfl
  · exact hnew.effects
  · exact hdurable

/-! ## One event -/

/-- What the consumer is given at an event: the commands after the last applied entry,
or those after the snapshot that it is brought up to first.  Each of them is beyond all
that it has recorded when it is given. -/
inductive Given (event : Event) (calls : List (ℕ × Bytes)) (all all' : List Entry)
    (n n' : Node σ) : Prop
  | onward
      (htake : all'.take n.standing.lastApplied = all.take n.standing.lastApplied)
      (hle : n.standing.lastApplied ≤ n'.standing.lastApplied)
      (hcalls : calls =
        commandsBetween all' n.standing.lastApplied n'.standing.lastApplied)
      (hfresh : n.recorder.Fresh calls)
      (hrecorder : n'.recorder = n.recorder.takes calls) :
      Given event calls all all' n n'
  | restored {ticket : ℕ} {request : InstallRequest} {recorder : Recorder}
      (hevent : event = .installRequest ticket request)
      (hnew : n.standing.lastApplied < request.lastIncludedIndex)
      (hle : request.lastIncludedIndex ≤ n'.standing.lastApplied)
      (hrestored : n.recorder.restore request.data = .ok recorder)
      (hcalls : calls =
        commandsBetween all' request.lastIncludedIndex n'.standing.lastApplied)
      (hfresh : recorder.Fresh calls)
      (hrecorder : n'.recorder = recorder.takes calls) :
      Given event calls all all' n n'

omit [Storage σ] [Faithful σ] in
/-- The commands that are given come after what was applied before, in order, and are
applied then. -/
theorem Given.between {calls : List (ℕ × Bytes)} (h : Given event calls all all' n n')
    (hnumbered : Numbered all') :
    n.standing.lastApplied ≤ n'.standing.lastApplied ∧
      (calls.Pairwise fun call call' => call.1 < call'.1) ∧
      ∀ call ∈ calls, n.standing.lastApplied < call.1 ∧
        call.1 ≤ n'.standing.lastApplied := by
  cases h with
  | onward htake hle hcalls =>
      subst hcalls
      exact ⟨hle, pairwise_commandsBetween hnumbered _ _,
        fun call hcall => index_of_mem_commandsBetween hnumbered hcall⟩
  | restored hevent hnew hle hrestored hcalls =>
      subst hcalls
      refine ⟨hnew.le.trans hle, pairwise_commandsBetween hnumbered _ _, ?_⟩
      intro call hcall
      obtain ⟨hlt, hlast⟩ := index_of_mem_commandsBetween hnumbered hcall
      exact ⟨hnew.trans hlt, hlast⟩

omit [Storage σ] [Faithful σ] in
/-- Neither commands nor a snapshot make another consumer of it. -/
theorem Given.durable {calls : List (ℕ × Bytes)} (h : Given event calls all all' n n') :
    n'.recorder.durable = n.recorder.durable := by
  cases h with
  | onward htake hle hcalls hfresh hrecorder =>
      rw [hrecorder, Recorder.takes_durable]
  | restored hevent hnew hle hrestored hcalls hfresh hrecorder =>
      rw [hrecorder, Recorder.takes_durable, Recorder.restore_durable hrestored]

/-- An event that is handled gives the consumer what it should. -/
theorem Provides.handled (h : Provides all n) (hagrees : event.Agrees n)
    (hgenuine : event.IsGenuine) (hrun : handle event n = .ok () n') :
    ∃ all', Provides all' { n' with effects := [] } ∧
      (∃ m, Opening event n m ∧ Spans all' m) ∧
      Given event n'.calls all all' n { n' with effects := [] } := by
  have hcourse := (handle_runs h.saved event).ok hrun
  have hsaved := hcourse.saved h.saved
  have hidle : n'.Idle := (endsIdle_handle h.idle event).ok hrun
  obtain ⟨m, hopening, hsettling⟩ := hcourse
  obtain ⟨all', hm, honset⟩ :=
    hopening.feeds h.toFeeds (h.level.isHarmless hagrees) hgenuine
  have hdelivers := hsettling.delivers hm
  have hnone : n.calls = [] := by
    unfold Node.calls
    rw [h.effects]
    rfl
  have hcalls : n'.calls = commandsBetween all' m.standing.lastApplied
      n'.standing.lastApplied := by
    rw [hdelivers.calls, hopening.calls, hnone, List.nil_append]
  have hfresh := hdelivers.fresh
  have hrecorder := hdelivers.recorder
  rw [← hcalls] at hfresh hrecorder
  have hgiven : Given event n'.calls all all' n { n' with effects := [] } := by
    cases honset with
    | kept happlied hrecorded htake =>
        rw [happlied] at hcalls
        rw [hrecorded] at hfresh hrecorder
        exact .onward htake (happlied ▸ hdelivers.le) hcalls hfresh hrecorder
    | restored hevent hnew happlied hrestored =>
        rw [happlied] at hcalls
        exact .restored hevent hnew (happlied ▸ hdelivers.le) hrestored hcalls hfresh
          hrecorder
  refine ⟨all', ?_, ⟨m, hopening, hm.toSpans⟩, hgiven⟩
  have hfeeds := hdelivers.feeds
  constructor
  · exact hfeeds.unmoved (hfeeds.level.of_same rfl rfl rfl) rfl rfl rfl rfl rfl
  · exact hsaved
  · exact hidle
  · rfl
  · exact hgiven.durable.trans h.durable

/-- After a stop the node goes on from an index that it had applied. -/
theorem Provides.restarted (h : Provides all n) {settings : Settings} {d : Durable σ}
    (hrun : recover settings n.durable = .ok m d) :
    Provides all m ∧ m.standing.lastApplied ≤ n.standing.lastApplied ∧
      m.recorder.applyCalls = n.recorder.applyCalls := by
  have hnumbered := h.numbered.of_isPrefix (List.take_prefix n.standing.lastApplied all)
  have hlast : n.recorder.lastApplied = n.recorder.record.lastApplied := by
    unfold Recorder.lastApplied
    rw [if_pos h.durable]
  have hle : n.recorder.lastApplied ≤ n.standing.lastApplied := by
    rw [hlast, h.record]
    exact (recordAfter_lastApplied_le hnumbered).trans (List.length_take_le _ _)
  have hrecord : n.recorder.record =
      recordAfter (all.take n.recorder.lastApplied) := by
    have hsame := recordAfter_take_lastApplied hnumbered
    rw [List.take_take, ← h.record, ← hlast, Nat.min_eq_left hle] at hsame
    exact hsame.symm
  have hreach := max_le h.level.boundary_le hle
  obtain ⟨hfeeds, happlied, hcalls, hdurable⟩ := feeds_of_recover h.numbered h.entries
    h.stored hrecord (hreach.trans h.applied_le) hrun
  refine ⟨provides_of_recover hfeeds (hdurable.trans h.durable) hrun, ?_, hcalls⟩
  rw [happlied]
  exact hreach

end Node

/-! ## Runs -/

/-- What a node does next, with the commands that it gives its consumer meanwhile. -/
inductive Service.Turn where
  | handled (event : Event) (calls : List (ℕ × Bytes))
  | restarted
  | rested

/-- One turn of a node.  Leaders contradict nothing that it has applied, and snapshots
were written by a consumer. -/
inductive Service.Step {σ : Type} [Storage σ] : Node σ → Turn → Node σ → Prop
  | handled {event : Event} {n n' : Node σ} (hagrees : event.Agrees n)
      (hgenuine : event.IsGenuine) (hrun : Node.handle event n = .ok () n') :
      Step n (.handled event n'.calls) { n' with effects := [] }
  | restarted {settings : Settings} {d : Durable σ} {n m : Node σ}
      (hrun : Node.recover settings n.durable = .ok m d) : Step n .restarted m
  | rested (n : Node σ) : Step n .rested n

/-- The service of a node to one consumer, from an empty disk on. -/
structure Service (σ : Type) [Storage σ] [Faithful σ] where
  node : ℕ → Node σ
  turn : ℕ → Service.Turn
  first : ∃ settings disk d, Faithful.stored disk = {} ∧
    Node.recover settings ⟨disk, { durable := true }⟩ = .ok (node 0) d
  step : ∀ k, Service.Step (node k) (turn k) (node (k + 1))

namespace Service

variable {σ : Type} [Storage σ] [Faithful σ]

/-- The commands that the consumer is given at a turn. -/
def Turn.calls : Turn → List (ℕ × Bytes)
  | .handled _ calls => calls
  | _ => []

/-- The commands that the consumer is given in the turns from `k` on. -/
def callsFrom (s : Service σ) (k count : ℕ) : List (ℕ × Bytes) :=
  (List.range count).flatMap fun i => (s.turn (k + i)).calls

/-- The history tells at each moment of all entries that the node has, and which
commands its consumer is given and has recorded. -/
structure Recounts (s : Service σ) (all : ℕ → List Entry) : Prop where
  first : all 0 = []
  spans : ∀ k, (s.node k).Spans (all k)
  applied_eq : ∀ k,
    (s.node k).standing.lastApplied = (s.node k).standing.commitIndex
  taken : ∀ k event calls, s.turn k = .handled event calls →
    ∃ m, Node.Opening event (s.node k) m ∧ m.Spans (all (k + 1))
  given : ∀ k event calls, s.turn k = .handled event calls →
    Node.Given event calls (all k) (all (k + 1)) (s.node k) (s.node (k + 1))
  unhandled : ∀ k, (∀ event calls, s.turn k ≠ .handled event calls) →
    all (k + 1) = all k ∧
      (s.node (k + 1)).standing.lastApplied ≤ (s.node k).standing.lastApplied ∧
      (s.node (k + 1)).recorder.applyCalls = (s.node k).recorder.applyCalls
  rises : ∀ k count, (∀ i < count, s.turn (k + i) ≠ .restarted) →
    (s.callsFrom k count).Pairwise fun call call' => call.1 < call'.1

/-- What one turn does to the history. -/
structure Writes (turn : Turn) (n n' : Node σ) (all all' : List Entry) : Prop where
  taken : ∀ event calls, turn = .handled event calls →
    ∃ m, Node.Opening event n m ∧ m.Spans all'
  given : ∀ event calls, turn = .handled event calls →
    Node.Given event calls all all' n n'
  unhandled : (∀ event calls, turn ≠ .handled event calls) →
    all' = all ∧ n'.standing.lastApplied ≤ n.standing.lastApplied ∧
      n'.recorder.applyCalls = n.recorder.applyCalls

theorem Step.exists_writes {turn : Turn} {n n' : Node σ} {all : List Entry}
    (h : Step n turn n') (hn : n.Provides all) :
    ∃ all', n'.Provides all' ∧ Writes turn n n' all all' := by
  cases h with
  | handled hagrees hgenuine hrun =>
      obtain ⟨all', hprovides, htaken, hgiven⟩ := hn.handled hagrees hgenuine hrun
      refine ⟨all', hprovides, ?_, ?_, fun hnone => absurd rfl (hnone _ _)⟩
      · rintro event calls hturn
        obtain ⟨rfl, rfl⟩ := Turn.handled.inj hturn
        exact htaken
      · rintro event calls hturn
        obtain ⟨rfl, rfl⟩ := Turn.handled.inj hturn
        exact hgiven
  | restarted hrun =>
      obtain ⟨hprovides, hle, hcalls⟩ := hn.restarted hrun
      exact ⟨all, hprovides, by simp, by simp, fun _ => ⟨rfl, hle, hcalls⟩⟩
  | rested => exact ⟨all, hn, by simp, by simp, fun _ => ⟨rfl, le_rfl, rfl⟩⟩

theorem provides_first (s : Service σ) : (s.node 0).Provides [] := by
  obtain ⟨settings, disk, d, hempty, hrun⟩ := s.first
  have hstored : (Faithful.stored disk).Upholds [] ⟨[], 0, 0⟩ := by
    rw [hempty]
    exact ⟨rfl, rfl, fun _ hnone => absurd hnone (by simp)⟩
  have hnumbered : Numbered [] := numbered_iff.mpr (.nil 0)
  have hrecover := Node.feeds_of_recover hnumbered rfl hstored rfl le_rfl hrun
  exact Node.provides_of_recover hrecover.1 hrecover.2.2.2 hrun

/-- There is a history, told turn by turn. -/
theorem exists_history (s : Service σ) : ∃ all : ℕ → List Entry, all 0 = [] ∧
    (∀ k, (s.node k).Provides (all k)) ∧
    ∀ k, Writes (s.turn k) (s.node k) (s.node (k + 1)) (all k) (all (k + 1)) := by
  have hstep : ∀ k all, (s.node k).Provides all → ∃ all', (s.node (k + 1)).Provides all' ∧
      Writes (s.turn k) (s.node k) (s.node (k + 1)) all all' :=
    fun k _ hk => (s.step k).exists_writes hk
  choose next hprovides hwrites using hstep
  let told : ∀ k, { all // (s.node k).Provides all } :=
    Nat.rec ⟨[], s.provides_first⟩ fun k all =>
      ⟨next k all all.property, hprovides k all all.property⟩
  refine ⟨fun k => (told k).val, rfl, fun k => (told k).property, ?_⟩
  intro k
  exact hwrites k (told k).val (told k).property

theorem callsFrom_succ (s : Service σ) (k count : ℕ) :
    s.callsFrom k (count + 1) = s.callsFrom k count ++ (s.turn (k + count)).calls := by
  unfold callsFrom
  rw [List.range_succ, List.flatMap_append]
  simp

omit [Faithful σ] in
/-- The commands of one turn come after what was applied before it. -/
theorem Writes.between {turn : Turn} {n n' : Node σ} {all all' : List Entry}
    (h : Writes turn n n' all all') (hnumbered : Numbered all')
    (hstep : Step n turn n') (hturn : turn ≠ .restarted) :
    n.standing.lastApplied ≤ n'.standing.lastApplied ∧
      (turn.calls.Pairwise fun call call' => call.1 < call'.1) ∧
      ∀ call ∈ turn.calls, n.standing.lastApplied < call.1 ∧
        call.1 ≤ n'.standing.lastApplied := by
  cases hstep with
  | handled => exact (h.given _ _ rfl).between hnumbered
  | restarted => exact absurd rfl hturn
  | rested => exact ⟨le_rfl, List.Pairwise.nil, by simp [Turn.calls]⟩

/-- Between two starts the indices of the commands rise, and all are applied. -/
theorem rises_callsFrom (s : Service σ) {all : ℕ → List Entry}
    (hprovides : ∀ k, (s.node k).Provides (all k))
    (hwrites : ∀ k, Writes (s.turn k) (s.node k) (s.node (k + 1)) (all k) (all (k + 1)))
    (k count : ℕ) (hstays : ∀ i < count, s.turn (k + i) ≠ .restarted) :
    ((s.callsFrom k count).Pairwise fun call call' => call.1 < call'.1) ∧
      ∀ call ∈ s.callsFrom k count,
        call.1 ≤ (s.node (k + count)).standing.lastApplied := by
  induction count with
  | zero => exact ⟨List.Pairwise.nil, by simp [callsFrom]⟩
  | succ count ih =>
      obtain ⟨hpairwise, hbefore⟩ := ih fun i hi => hstays i (hi.trans (Nat.lt_succ_self _))
      obtain ⟨hle, hnext, hbetween⟩ := (hwrites (k + count)).between
        (hprovides (k + count + 1)).numbered (s.step (k + count))
        (hstays count (Nat.lt_succ_self _))
      rw [callsFrom_succ]
      constructor
      · refine List.pairwise_append.mpr ⟨hpairwise, hnext, fun call hcall call' hcall' => ?_⟩
        exact (hbefore call hcall).trans_lt (hbetween call' hcall').1
      · intro call hcall
        rcases List.mem_append.mp hcall with hold | hnew
        · exact (hbefore call hold).trans hle
        · exact (hbetween call hnew).2

/-- Through any number of events and stops, the consumer has recorded the commands
among the applied entries and no others.  Each was given to it when it was new, one
after the other, and all that were applied meanwhile. -/
theorem exactlyOnce (s : Service σ) : ∃ all, s.Recounts all := by
  obtain ⟨all, hfirst, hprovides, hwrites⟩ := s.exists_history
  refine ⟨all, ?_⟩
  constructor
  · exact hfirst
  · exact fun k => (hprovides k).toSpans
  · exact fun k => le_antisymm (hprovides k).level.applied_le (hprovides k).idle
  · exact fun k => (hwrites k).taken
  · exact fun k => (hwrites k).given
  · exact fun k => (hwrites k).unhandled
  · exact fun k count hstays => (s.rises_callsFrom hprovides hwrites k count hstays).1

/-! ## The service of a single node -/

/-- The only node there is stands for election, is given a command, stops, and is
elected again. -/
def soleTurn : ℕ → Turn
  | 0 => .handled .campaign []
  | 1 => .handled (.command 7 [120]) [(2, [120])]
  | 2 => .restarted
  | 3 => .handled .campaign []
  | _ => .rested

/-- The node after a turn, on a disk in memory. -/
def follow (n : Node Memory) : Turn → Node Memory
  | .handled event _ => { (outcome (Node.handle event) n).2 with effects := [] }
  | .restarted =>
    match (outcome (Node.recover {}) n.durable).1 with
    | .ok m => m
    | .error _ => n
  | .rested => n

/-- The node before each of its turns. -/
def soleNode : ℕ → Node Memory
  | 0 => .fresh {} ⟨{}, { durable := true }⟩
  | k + 1 => follow (soleNode k) (soleTurn k)

theorem step_follow {n : Node Memory} {event : Event} {calls : List (ℕ × Bytes)}
    (hagrees : event.Agrees n) (hgenuine : event.IsGenuine)
    (hrun : (outcome (Node.handle event) n).1 = .ok ())
    (hcalls : (outcome (Node.handle event) n).2.calls = calls) :
    Step n (.handled event calls) (follow n (.handled event calls)) := by
  subst hcalls
  exact .handled hagrees hgenuine (eq_ok_of_outcome hrun)

theorem step_follow_restarted {n : Node Memory}
    (hruns : (outcome (Node.recover {}) n.durable).1.toOption.isSome = true) :
    Step n .restarted (follow n .restarted) := by
  cases hrun : (outcome (Node.recover {}) n.durable).1 with
  | error e =>
      rw [hrun] at hruns
      exact absurd hruns (by simp [Except.toOption])
  | ok m =>
      have hnext : follow n .restarted = m := by
        unfold follow
        rw [hrun]
      rw [hnext]
      exact .restarted (eq_ok_of_outcome hrun)

theorem step_sole (k : ℕ) : Step (soleNode k) (soleTurn k) (soleNode (k + 1)) := by
  rcases k with - | - | - | - | k
  · exact step_follow trivial trivial (by decide +kernel) (by decide +kernel)
  · exact step_follow trivial trivial (by decide +kernel) (by decide +kernel)
  · exact step_follow_restarted (by decide +kernel)
  · exact step_follow trivial trivial (by decide +kernel) (by decide +kernel)
  · exact .rested _

def sole : Service Memory where
  node := soleNode
  turn := soleTurn
  first := ⟨{}, {}, _, rfl, rfl⟩
  step := step_sole

/-- The command is not given again after the stop. -/
theorem sole_exactlyOnce : (∃ all, sole.Recounts all) ∧
    (sole.node 5).standing.lastApplied = 3 ∧
    (sole.node 5).recorder.record.entries = [(2, [120])] ∧
    (sole.node 5).recorder.applyCalls = 1 :=
  ⟨exactlyOnce sole, by decide +kernel, by decide +kernel, by decide +kernel⟩

end Service

end Consensus
