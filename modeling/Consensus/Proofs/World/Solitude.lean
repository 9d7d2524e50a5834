import Consensus.Node.Step
import Consensus.Proofs.Files
import Consensus.Proofs.Node.Solitary

/-!
# A node without peers outlives its stops

A node that is the only member of its cluster is handed commands, and stands for
election when it is told to or has waited for long enough.  Between two events it may
stop, and start again over the same disk, with a consumer that has nothing.  Every
time it may let its log grow to another length before it is compacted.

It starts every time, and wins every election, in a term that is new.  A command that it
is handed while it leads is answered, with an index beyond those of all earlier answers.
And whenever it leads, its consumer has recorded every command that was ever answered,
with the index it was answered with, and nothing else.
-/

namespace Consensus

/-- The settings of a node that has the id, and is its only member. -/
structure Settings.Alone (id : ℕ) (settings : Settings) : Prop where
  valid : settings.validate = .ok ()
  self : settings.nodeId = id
  members : NodeSet.ofList settings.members = .single id

namespace Solitude

/-- What may happen next to a node. -/
inductive Turn where
  | campaign
  | electionTimeout
  | command (ticket : ℕ) (payload : Bytes)
  | restart (settings : Settings)

/-- A turn of a node, and the node before and after it. -/
structure Episode (σ : Type) where
  turn : Turn
  before : Node σ
  after : Node σ

end Solitude

/-- What has become of a node, and all that has happened to it, oldest first. -/
structure Solitude (σ : Type) where
  node : Node σ
  episodes : List (Solitude.Episode σ)

namespace Solitude

variable {σ : Type} [Storage σ]

/-- The node after an event, with the effects that the event had. -/
def handle (event : Event) (n : Node σ) : Except Error (Node σ) :=
  match Node.handle event { n with effects := [] } with
  | .ok _ n' => .ok n'
  | .error e _ => .error e

/-- The node that is built over a disk, for a consumer that has nothing. -/
def start (settings : Settings) (disk : σ) : Except Error (Node σ) :=
  match Node.recover settings ⟨disk, {}⟩ with
  | .ok n _ => .ok n
  | .error e _ => .error e

/-- The node after a turn. -/
def Turn.take : Turn → Node σ → Except Error (Node σ)
  | .campaign, n => handle .campaign n
  | .electionTimeout, n => handle .electionTimeout n
  | .command ticket payload, n => handle (.command ticket payload) n
  | .restart settings, n => start settings n.stop.disk

/-- One more turn. -/
def next (s : Solitude σ) (turn : Turn) : Except Error (Solitude σ) := do
  let n ← turn.take s.node
  return ⟨n, s.episodes ++ [⟨turn, s.node, n⟩]⟩

/-- All turns, from the first start over a disk on. -/
def live (settings : Settings) (disk : σ) (turns : List Turn) :
    Except Error (Solitude σ) := do
  let n ← start settings disk
  turns.foldlM next ⟨n, []⟩

/-! ## What is promised -/

/-- The index that the caller with the ticket is told when its command is applied. -/
def appliedFor? (ticket : ℕ) : Effect → Option ℕ
  | .answer found (.applied index) => if found = ticket then some index else none
  | _ => none

namespace Episode

/-- The command that was answered, with the index it was answered with. -/
def answered (e : Episode σ) : List (ℕ × Bytes) :=
  match e.turn with
  | .command ticket payload =>
    (e.after.effects.filterMap (appliedFor? ticket)).map fun index => (index, payload)
  | _ => []

/-- There is an election: it is called for, or a node that does not lead has waited for
long enough. -/
def Elects (e : Episode σ) : Prop :=
  e.turn = .campaign ∨ e.turn = .electionTimeout ∧ e.before.standing.role ≠ .leader

omit [Storage σ] in
/-- Commands and starts are no elections. -/
theorem not_elects {e : Episode σ} (hcampaign : e.turn ≠ .campaign)
    (htimeout : e.turn ≠ .electionTimeout) : ¬ e.Elects := by
  rintro (hturn | ⟨hturn, -⟩)
  · exact hcampaign hturn
  · exact htimeout hturn

end Episode

/-- All commands that were answered, oldest first. -/
def answers (episodes : List (Episode σ)) : List (ℕ × Bytes) :=
  episodes.flatMap Episode.answered

/-- What an episode keeps, when others have come before it.  The node before an episode is
the one after the last, so the terms before them are all terms so far. -/
structure Episode.Keeps (past : List (Episode σ)) (e : Episode σ) : Prop where
  elected : e.Elects → e.after.standing.role = .leader ∧
    ∀ earlier ∈ past ++ [e],
      earlier.before.standing.currentTerm < e.after.standing.currentTerm
  answered : ∀ ticket payload, e.turn = .command ticket payload →
    e.before.standing.role = .leader →
      ∃ index, e.after.effects = [.consume index payload,
        .answer ticket (.applied index), .announce index] ∧
        ∀ call ∈ answers past, call.1 < index
  recorded : e.after.standing.role = .leader →
    e.after.recorder.record.entries = answers (past ++ [e])

/-- Every episode keeps what it should, and each turn is one of them. -/
structure Lasts (turns : List Turn) (s : Solitude σ) : Prop where
  turns_eq : s.episodes.map Episode.turn = turns
  keeps : ∀ past e, past ++ [e] <+: s.episodes → e.Keeps past

/-! ## One turn -/

theorem exists_handle (event : Event) (n : Node σ) {Q : Unit → Node σ → Prop}
    (h : Ensures (Node.handle event) { n with effects := [] } Q fun _ => False) :
    ∃ n', handle event n = .ok n' ∧ Q () n' := by
  unfold handle
  cases hrun : Node.handle event { n with effects := [] } with
  | ok a n' => exact ⟨n', rfl, h.ok hrun⟩
  | error e n' => exact (h.error hrun).elim

theorem exists_start {settings : Settings} {disk : σ}
    {Q : Node σ → Durable σ → Prop}
    (h : Ensures (Node.recover settings) ⟨disk, {}⟩ Q fun _ => False) :
    ∃ n d, start settings disk = .ok n ∧ Q n d := by
  unfold start
  cases hrun : Node.recover settings ⟨disk, {}⟩ with
  | ok n d => exact ⟨n, d, rfl, h.ok hrun⟩
  | error e d => exact (h.error hrun).elim

variable {Holds : σ → Stored → Prop} {id : ℕ} {all all' : List Entry} {n : Node σ}
  {turn : Turn} {turns : List Turn} {s : Solitude σ}

/-- What a turn does to a node and to the list of all entries. -/
structure Passes (Holds : σ → Stored → Prop) (id : ℕ) (all all' : List Entry)
    (e : Episode σ) : Prop where
  solitary : e.after.Solitary Holds id all'
  recorded : (recordAfter all').entries = (recordAfter all).entries ++ e.answered
  length_le : all'.length ≤ all.length + 1
  term_le : e.before.standing.currentTerm ≤ e.after.standing.currentTerm
  le_term : e.after.standing.currentTerm ≤ e.before.standing.currentTerm + 1
  elected : e.Elects → e.after.standing.role = .leader ∧
    e.before.standing.currentTerm < e.after.standing.currentTerm
  answered : ∀ ticket payload, e.turn = .command ticket payload →
    e.before.standing.role = .leader →
      e.after.effects = [.consume (all.length + 1) payload,
        .answer ticket (.applied (all.length + 1)), .announce (all.length + 1)]

omit [Storage σ] in
/-- A turn after which there is no new entry, nobody is elected and nobody answered. -/
theorem passes_of_same {e : Episode σ} (hsolitary : e.after.Solitary Holds id all)
    (hterm : e.after.standing.currentTerm = e.before.standing.currentTerm)
    (hnone : e.answered = []) (helects : ¬ e.Elects)
    (hcommand : ∀ ticket payload, e.turn = .command ticket payload →
      e.before.standing.role ≠ .leader) : Passes Holds id all all e where
  solitary := hsolitary
  recorded := by rw [hnone, List.append_nil]
  length_le := Nat.le_succ _
  term_le := hterm.symm.le
  le_term := hterm.le.trans (Nat.le_succ _)
  elected he := absurd he helects
  answered ticket payload hturn hrole := absurd hrole (hcommand ticket payload hturn)

omit [Storage σ] in
/-- A turn after which the node leads in the next term. -/
theorem passes_of_elected {e : Episode σ} {entry : Entry} (hentry : entry.call? = none)
    (hsolitary : e.after.Solitary Holds id (all ++ [entry]))
    (hrole : e.after.standing.role = .leader)
    (hterm : e.after.standing.currentTerm = e.before.standing.currentTerm + 1)
    (hturn : ∀ ticket payload, e.turn ≠ .command ticket payload) :
    Passes Holds id all (all ++ [entry]) e where
  solitary := hsolitary
  recorded := by
    have hnone : e.answered = [] := by
      unfold Episode.answered
      split
      · next hcommand => exact absurd hcommand (hturn _ _)
      · rfl
    rw [recordAfter_append_single, Record.add_of_none hentry, hnone, List.append_nil]
  length_le := List.length_append.le
  term_le := hterm.symm ▸ Nat.le_succ _
  le_term := hterm.le
  elected _ := ⟨hrole, hterm.symm ▸ Nat.lt_succ_self _⟩
  answered ticket payload hcommand := absurd hcommand (hturn ticket payload)

omit [Storage σ] in
/-- A turn after which a command is the last entry, and its caller knows. -/
theorem passes_of_answered {n' : Node σ} {term ticket : ℕ} {payload : Bytes}
    (hsolitary : n'.Solitary Holds id
      (all ++ [⟨term, all.length + 1, .command payload⟩]))
    (hterm : n'.standing.currentTerm = n.standing.currentTerm)
    (heffects : n'.effects = [.consume (all.length + 1) payload,
      .answer ticket (.applied (all.length + 1)), .announce (all.length + 1)]) :
    Passes Holds id all (all ++ [⟨term, all.length + 1, .command payload⟩])
      ⟨.command ticket payload, n, n'⟩ where
  solitary := hsolitary
  recorded := by
    have hcall : Entry.call? ⟨term, all.length + 1, .command payload⟩ =
        some (all.length + 1, payload) := rfl
    have hanswered : Episode.answered ⟨.command ticket payload, n, n'⟩ =
        [(all.length + 1, payload)] := by
      unfold Episode.answered
      dsimp only
      rw [heffects]
      simp only [List.filterMap_cons, List.filterMap_nil, appliedFor?, if_pos,
        List.map_cons, List.map_nil]
    rw [recordAfter_append_single, Record.add_of_call hcall, hanswered]
  length_le := List.length_append.le
  term_le := hterm.symm.le
  le_term := hterm.le.trans (Nat.le_succ _)
  elected helects := absurd helects (Episode.not_elects (by simp) (by simp))
  answered found bytes hturn _ := by
    obtain ⟨rfl, rfl⟩ := Turn.command.inj hturn
    exact heffects

/-- A leader waits for nobody. -/
theorem handle_electionTimeout (hrole : n.standing.role = .leader) :
    handle .electionTimeout n = .ok { n with effects := [] } := by
  have hstays : Ensures (Node.handle .electionTimeout) { n with effects := [] }
      (fun _ n' => n' = { n with effects := [] }) fun _ => False := by
    change Ensures Node.handleElectionTimeout _ _ _
    unfold Node.handleElectionTimeout
    rw [Ensures.get_bind_iff]
    exact Ensures.ite (fun _ => rfl) fun hnot => absurd hrole hnot
  obtain ⟨n', hrun, rfl⟩ := exists_handle _ n hstays
  exact hrun

/-- Whoever does not lead refuses a command, and nothing else happens. -/
theorem handle_command (hrole : n.standing.role ≠ .leader) (ticket : ℕ)
    (payload : Bytes) : handle (.command ticket payload) n = .ok { n with
      effects := [.answer ticket (.refused (.notLeader n.standing.leader))] } := by
  have hrefuses : Ensures (Node.handle (.command ticket payload))
      { n with effects := [] }
      (fun _ n' => n' = { n with
        effects := [.answer ticket (.refused (.notLeader n.standing.leader))] })
      fun _ => False := by
    change Ensures (Node.handleCommand ticket payload) _ _ _
    unfold Node.handleCommand
    rw [Ensures.get_bind_iff]
    exact Ensures.ite (fun _ => rfl) fun hleads => absurd (not_not.mp hleads) hrole
  obtain ⟨n', hrun, rfl⟩ := exists_handle _ n hrefuses
  exact hrun

section

variable (hretains : Storage.Retains Holds IsWord False) (hid : IsWord id)
include hretains hid

/-- A command is answered by a leader, and refused by another node. -/
theorem exists_command (h : n.Solitary Holds id all)
    (hterm : IsWord n.standing.currentTerm) (hlength : IsWord (all.length + 1))
    (ticket : ℕ) (payload : Bytes) :
    ∃ n' all', (Turn.command ticket payload).take n = .ok n' ∧
      Passes Holds id all all' ⟨.command ticket payload, n, n'⟩ := by
  by_cases hrole : n.standing.role = .leader
  · have hcleared := h.withEffects []
    obtain ⟨n', hrun, hsolitary, -, hsame, heffects⟩ := exists_handle
      (.command ticket payload) n
      (hcleared.ensures_handleCommand hretains hid hrole hterm hlength ticket payload)
    exact ⟨n', _, hrun, passes_of_answered hsolitary hsame heffects⟩
  · refine ⟨_, all, handle_command hrole ticket payload, ?_⟩
    apply passes_of_same
    · exact h.withEffects _
    · rfl
    · rfl
    · exact Episode.not_elects (by simp) (by simp)
    · exact fun _ _ _ => hrole

/-- A timeout leads to an election, unless the node leads. -/
theorem exists_electionTimeout (h : n.Solitary Holds id all)
    (hterm : IsWord (n.standing.currentTerm + 1)) (hlength : IsWord (all.length + 1)) :
    ∃ n' all', Turn.electionTimeout.take n = .ok n' ∧
      Passes Holds id all all' ⟨.electionTimeout, n, n'⟩ := by
  have hcleared := h.withEffects []
  by_cases hrole : n.standing.role = .leader
  · refine ⟨_, all, handle_electionTimeout hrole, ?_⟩
    apply passes_of_same
    · exact hcleared
    · rfl
    · rfl
    · rintro (hturn | ⟨-, hnot⟩)
      · exact absurd hturn (by simp)
      · exact hnot hrole
    · exact fun _ _ hturn => absurd hturn (by simp)
  · obtain ⟨n', hrun, entry, hentry, hsolitary, hleads, hnew⟩ := exists_handle
      .electionTimeout n
      (hcleared.ensures_handleElectionTimeout hretains hid hrole hterm hlength)
    exact ⟨n', _, hrun, passes_of_elected hentry hsolitary hleads hnew (by simp)⟩

/-- Every turn comes to its end. -/
theorem exists_take (h : n.Solitary Holds id all)
    (hrestart : ∀ settings, turn = .restart settings → settings.Alone id)
    (hterm : IsWord (n.standing.currentTerm + 1)) (hlength : IsWord (all.length + 1)) :
    ∃ n' all', turn.take n = .ok n' ∧ Passes Holds id all all' ⟨turn, n, n'⟩ := by
  cases turn with
  | campaign =>
      have hcleared := h.withEffects []
      obtain ⟨n', hrun, entry, hentry, hsolitary, hrole, hnew⟩ := exists_handle .campaign n
        (hcleared.ensures_startElection hretains hid hterm hlength)
      exact ⟨n', _, hrun, passes_of_elected hentry hsolitary hrole hnew (by simp)⟩
  | electionTimeout => exact exists_electionTimeout hretains hid h hterm hlength
  | command ticket payload =>
      exact exists_command hretains hid h (hterm.of_le (Nat.le_succ _)) hlength ticket
        payload
  | restart settings =>
      have halone := hrestart settings rfl
      obtain ⟨m, d, hrun, hsolitary, -, hsame, -⟩ := exists_start
        (h.ensures_recover hretains halone.valid halone.self halone.members
          (hlength.of_le (Nat.le_succ _)))
      refine ⟨m, all, hrun, ?_⟩
      apply passes_of_same
      · exact hsolitary
      · exact hsame
      · rfl
      · exact Episode.not_elects (by simp) (by simp)
      · exact fun _ _ hturn => absurd hturn (by simp)

end

/-! ## All turns -/

/-- What holds of a node after any number of turns. -/
structure Thrives (Holds : σ → Stored → Prop) (id : ℕ) (turns : List Turn)
    (all : List Entry) (s : Solitude σ) : Prop extends s.Lasts turns where
  solitary : s.node.Solitary Holds id all
  recorded : (recordAfter all).entries = answers s.episodes
  length_le : all.length ≤ turns.length
  term_le : s.node.standing.currentTerm ≤ turns.length
  terms : ∀ e ∈ s.episodes,
    e.before.standing.currentTerm ≤ s.node.standing.currentTerm

section

variable (h : Thrives Holds id turns all s)
  (hpasses : Passes Holds id all all' ⟨turn, s.node, n⟩)

include h in
omit [Storage σ] in
/-- No term before a turn, nor any before that, is newer than the one before the turn. -/
theorem Thrives.before_le : ∀ e ∈ s.episodes ++ [⟨turn, s.node, n⟩],
    e.before.standing.currentTerm ≤ s.node.standing.currentTerm := by
  intro e he
  rcases List.mem_append.mp he with hold | hnew
  · exact h.terms e hold
  · rw [List.mem_singleton.mp hnew]

include h hpasses

omit [Storage σ] in
/-- What was answered is recorded of all entries. -/
theorem Thrives.answers_passed : answers (s.episodes ++ [⟨turn, s.node, n⟩]) =
    (recordAfter all').entries := by
  unfold answers
  rw [List.flatMap_append, hpasses.recorded, h.recorded, List.flatMap_singleton]
  rfl

omit [Storage σ] in
/-- A turn that passes keeps what it should. -/
theorem Thrives.keeps_passed : Episode.Keeps s.episodes ⟨turn, s.node, n⟩ := by
  constructor
  · intro helects
    obtain ⟨hrole, hlt⟩ := hpasses.elected helects
    exact ⟨hrole, fun e he => (h.before_le e he).trans_lt hlt⟩
  · intro ticket payload hturn hrole
    refine ⟨_, hpasses.answered ticket payload hturn hrole, fun call hcall => ?_⟩
    rw [← h.recorded] at hcall
    obtain ⟨k, hchronicle⟩ := h.solitary.tells.chronicle
    obtain ⟨entry, hentry, hindex, -⟩ := mem_recordAfter_iff.mp hcall
    obtain ⟨-, hlast, -⟩ := (numbered_iff.mp hchronicle.numbered).index_of_mem hentry
    omega
  · intro hrole
    have hrecord := hpasses.solitary.record
    rw [hpasses.solitary.leads hrole, List.take_length] at hrecord
    rw [h.answers_passed hpasses, ← hrecord]

omit [Storage σ] in
/-- A turn that passes is one more episode. -/
theorem Thrives.passed : Thrives Holds id (turns ++ [turn]) all'
    ⟨n, s.episodes ++ [⟨turn, s.node, n⟩]⟩ := by
  have hlength : (turns ++ [turn]).length = turns.length + 1 := List.length_append
  constructor
  · constructor
    · rw [List.map_append, h.turns_eq]
      rfl
    · intro past e hprefix
      rcases List.prefix_concat_iff.mp hprefix with heq | hold
      · obtain ⟨rfl, hlast⟩ := List.append_inj' heq rfl
        obtain rfl := List.head_eq_of_cons_eq hlast
        exact h.keeps_passed hpasses
      · exact h.keeps past e hold
  · exact hpasses.solitary
  · exact (h.answers_passed hpasses).symm
  · rw [hlength]
    exact hpasses.length_le.trans (Nat.succ_le_succ h.length_le)
  · rw [hlength]
    exact hpasses.le_term.trans (Nat.succ_le_succ h.term_le)
  · exact fun e he => (h.before_le e he).trans hpasses.term_le

end

/-- The last turn comes after the others. -/
theorem live_append (settings : Settings) (disk : σ) (turns : List Turn) (turn : Turn) :
    live settings disk (turns ++ [turn]) =
      live settings disk turns >>= fun s => s.next turn := by
  unfold live
  cases start settings disk with
  | error e => rfl
  | ok n =>
      change (turns ++ [turn]).foldlM next ⟨n, []⟩ = turns.foldlM next ⟨n, []⟩ >>= _
      rw [List.foldlM_append]
      congr 1
      funext s
      exact bind_pure _

/-- From a fresh disk of a kind that never fails, a node gets through all turns. -/
theorem exists_live (hretains : Storage.Retains Holds IsWord False) {disk : σ}
    (hdisk : Holds disk {}) (hid : IsWord id) {settings : Settings}
    (hsettings : settings.Alone id)
    (hrestarts : ∀ other, .restart other ∈ turns → other.Alone id)
    (hcount : IsWord turns.length) :
    ∃ s all, live settings disk turns = .ok s ∧ Thrives Holds id turns all s := by
  induction turns using List.reverseRecOn with
  | nil =>
      obtain ⟨n, d, hrun, hsolitary, -, hterm, -⟩ := exists_start
        (Node.ensures_recover_empty hretains hdisk hsettings.valid hsettings.self
          hsettings.members)
      refine ⟨⟨n, []⟩, [], ?_, ?_⟩
      · unfold live
        rw [hrun]
        rfl
      · constructor
        · exact ⟨rfl, fun past e hprefix => absurd (List.prefix_nil.mp hprefix) (by simp)⟩
        · exact hsolitary
        · rfl
        · exact le_rfl
        · exact hterm.le
        · exact fun e he => absurd he List.not_mem_nil
  | append_singleton turns turn ih =>
      have hlength : (turns ++ [turn]).length = turns.length + 1 := List.length_append
      rw [hlength] at hcount
      obtain ⟨s, all, hrun, hs⟩ := ih
        (fun other hin => hrestarts other (List.mem_append_left _ hin))
        (hcount.of_le (Nat.le_succ _))
      have hrestart : ∀ other, turn = .restart other → other.Alone id := by
        rintro other rfl
        exact hrestarts other (by simp)
      obtain ⟨n, all', htake, hpasses⟩ := exists_take hretains hid hs.solitary hrestart
        (hcount.of_le (Nat.succ_le_succ hs.term_le))
        (hcount.of_le (Nat.succ_le_succ hs.length_le))
      refine ⟨_, all', ?_, hs.passed hpasses⟩
      have hnext : next s turn = .ok ⟨n, s.episodes ++ [⟨turn, s.node, n⟩]⟩ := by
        unfold next
        rw [htake]
        rfl
      rw [live_append, hrun]
      exact hnext

/-- In fewer turns than there are terms and indices in 64 bits, whatever they are, nothing
goes wrong: neither with a disk in memory nor with files. -/
theorem endures {id : ℕ} (hid : IsWord id) {settings : Settings}
    (hsettings : settings.Alone id) {turns : List Turn}
    (hrestarts : ∀ other, .restart other ∈ turns → other.Alone id)
    (hcount : IsWord turns.length) :
    (∃ s : Solitude Memory, live settings {} turns = .ok s ∧ s.Lasts turns) ∧
      ∃ s : Solitude Directory, live settings {} turns = .ok s ∧ s.Lasts turns := by
  constructor
  · have hempty : Memory.Retaining {} {} := ⟨⟨rfl, rfl⟩, rfl⟩
    obtain ⟨s, all, hrun, hs⟩ := exists_live retains_clean hempty hid hsettings
      hrestarts hcount
    exact ⟨s, hrun, hs.toLasts⟩
  · obtain ⟨s, all, hrun, hs⟩ := exists_live Directory.retains_holds
      Directory.holds_empty hid hsettings hrestarts hcount
    exact ⟨s, hrun, hs.toLasts⟩

/-- Two commands, and two stops in between.  After the first stop the log is compacted,
so the consumer is brought up to a snapshot after the second one. -/
def twoCommands : List Turn :=
  [.campaign, .command 1 [120], .restart { compactionThreshold := 1 },
    .electionTimeout, .restart {}, .campaign, .command 2 [121]]

theorem alone_default (threshold : ℕ) (hpos : 0 < threshold) :
    Settings.Alone 1 { compactionThreshold := threshold } where
  valid := by
    obtain ⟨k, rfl⟩ := Nat.exists_eq_succ_of_ne_zero hpos.ne'
    rfl
  self := rfl
  members := rfl

theorem endures_twoCommands :
    ((∃ s : Solitude Memory, live {} {} twoCommands = .ok s ∧ s.Lasts twoCommands) ∧
      ∃ s : Solitude Directory, live {} {} twoCommands = .ok s ∧ s.Lasts twoCommands) ∧
    (live {} ({} : Memory) twoCommands).toOption.map (fun s =>
      (s.node.recorder.record.entries, s.node.recorder.restores)) =
        some ([(2, [120]), (5, [121])], 1) := by
  constructor
  · apply @endures 1
    · decide
    · exact alone_default 1000 (by decide)
    · intro other hother
      have hsettings : other = { compactionThreshold := 1 } ∨ other = {} := by
        simpa [twoCommands] using hother
      rcases hsettings with rfl | rfl
      · exact alone_default 1 (by decide)
      · exact alone_default 1000 (by decide)
    · decide
  · decide +kernel

end Solitude

end Consensus
