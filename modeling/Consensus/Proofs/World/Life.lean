import Consensus.Proofs.Node.Fresh
import Consensus.Proofs.Node.Pledging
import Consensus.Proofs.Node.Resuming

/-!
# The life of one node

A single node handles whatever events come, sound or not, and counts in words.
Any write may fail, and then the node is over; it may stop at any time, and start
again over what it stored, as often as it likes.  Of its disk only term and vote
have to be there again: nothing is asked of the log, the snapshot or the
consumer.  Which writes fail is up to the disk, of which there are such that any
write may fail.

In such a life no two candidates are ever backed in one term, and no term that
the outside heard of is forgotten, as long as no election is opened in the last
term of all.  After that one the terms start over.
-/

namespace Consensus

open Storage (Faithful)

variable {σ : Type} [Storage σ]

/-! ## Lives -/

/-- A node, or the disk that is left of it. -/
inductive Stage (σ : Type) where
  | up (node : Node σ)
  | down (disk : σ)

/-- What happens to a node, and what it lets out then. -/
inductive Moment where
  | handles (event : Event) (released : List Effect)
  | stops (released : List Effect)
  | starts
  | idle

/-- What the outside gets to know. -/
def Moment.released : Moment → List Effect
  | .handles _ released => released
  | .stops released => released
  | .starts => []
  | .idle => []

/-- One step in the life of the node with the id. -/
inductive Stage.Step [Counting] (id : ℕ) : Stage σ → Moment → Stage σ → Prop
  | handled {event : Event} {n n' : Node σ}
      (hrun : Node.handle event n = .ok () n') :
      Step id (.up n) (.handles event n'.effects)
        (.up { n' with effects := [] })
  | failed {event : Event} {n n' : Node σ} {e : Error}
      (hrun : Node.handle event n = .error e n') :
      Step id (.up n) (.handles event n'.effects) (.down n'.disk)
  | stopped {n : Node σ} : Step id (.up n) (.stops n.stop.effects) (.down n.disk)
  | started {settings : Settings} {disk disk' : σ} {recorder : Recorder}
      {d : Durable σ} {n : Node σ} (hself : settings.nodeId = id)
      (hkept : Storage.loadHardState disk' = Storage.loadHardState disk)
      (hrun : Node.recover settings ⟨disk', recorder⟩ = .ok n d) :
      Step id (.down disk) .starts (.up n)
  | refused {settings : Settings} {disk disk' : σ} {recorder : Recorder}
      {d : Durable σ} {e : Error} (hself : settings.nodeId = id)
      (hkept : Storage.loadHardState disk' = Storage.loadHardState disk)
      (hrun : Node.recover settings ⟨disk', recorder⟩ = .error e d) :
      Step id (.down disk) .starts (.down d.disk)
  | idle (stage : Stage σ) : Step id stage .idle stage

/-- The whole history of the node with the id, which counts in words. -/
structure Life (σ : Type) [Storage σ] (id : ℕ) where
  stage : ℕ → Stage σ
  moment : ℕ → Moment
  first : ∃ disk, stage 0 = .down disk
  step : ∀ k, @Stage.Step σ _ .words id (stage k) (moment k) (stage (k + 1))

/-- In the term the node backs the candidate: it grants the vote, asks for votes
itself, wins its election, or leads. -/
inductive Stage.Backs [Counting] (id : ℕ) (stage : Stage σ) (moment : Moment) (term : ℕ) :
    ℕ → Prop
  | granted {asked ticket : ℕ} {request : VoteRequest} {reply : VoteReply}
      {released : List Effect}
      (hmoment : moment = .handles (.voteRequest asked request) released)
      (hreleased : .answer ticket (.vote reply) ∈ released)
      (hgranted : reply.granted = true) (hterm : request.term = term) :
      Backs id stage moment term request.candidate
  | asked {peer : ℕ} {request : VoteRequest}
      (hreleased : .requestVote peer request ∈ moment.released)
      (hterm : request.term = term) : Backs id stage moment term id
  | won {event : Event} {released : List Effect} {n m : Node σ}
      (hup : stage = .up n) (hmoment : moment = .handles event released)
      (hwon : Node.contest event n = .ok true m)
      (hterm : m.standing.currentTerm = term) : Backs id stage moment term id
  | led {n : Node σ} (hup : stage = .up n) (hrole : n.standing.role = .leader)
      (hterm : n.standing.currentTerm = term) : Backs id stage moment term id

namespace Life

variable {id : ℕ} (l : Life σ id)

/-- At the moment the node backs the candidate in the term. -/
def Backs (k term c : ℕ) : Prop :=
  @Stage.Backs σ _ .words id (l.stage k) (l.moment k) term c

/-- No two candidates are ever backed in one term. -/
def OneCandidate : Prop :=
  ∀ k k' term c c', l.Backs k term c → l.Backs k' term c' → c = c'

/-- At the moment the node takes sides in the term, or tells a peer of it. -/
def Tells (k term : ℕ) : Prop :=
  (∃ c, l.Backs k term c) ∨
    ∃ effect ∈ (l.moment k).released, effect.term? = some term

/-- The term of the node is never below one that it told of. -/
def Remembers : Prop :=
  ∀ k k' term n, l.Tells k term → k < k' → l.stage k' = .up n →
    term ≤ n.standing.currentTerm

/-- No election is opened after the last term. -/
def HasTerms : Prop :=
  ∀ k event released n, l.stage k = .up n → l.moment k = .handles event released →
    event = .campaign ∨ event = .electionTimeout →
    n.standing.currentTerm + 1 < wordBound

end Life

/-! ## Starting again -/

variable [Faithful σ]

namespace Node

variable {id : ℕ} {event : Event} {start : HardState} {led : List HardState}
  {n : Node σ}

/-- After an event everything starts afresh, but nothing is forgotten. -/
theorem Keeps.rest (h : Keeps id event start led n) (event' : Event) :
    Keeps id event' n.standing.hardState [] { n with effects := [] } where
  self := h.self
  stored := h.stored
  saved := h.saved
  since := le_rfl
  votes := h.votes
  pledged := ⟨fun _ hp => absurd hp (by simp [Pledged]),
    fun _ _ hp => absurd hp (by simp [Pledged])⟩
  spoken := fun _ heffect => absurd heffect List.not_mem_nil

/-- A node starts with the term and the vote that are stored. -/
theorem keeps_recover [Counting] (settings : Settings) (d : Durable σ) :
    Ensures (recover settings) d
      (fun n _ => n.effects = [] ∧
        n.standing.hardState = (Faithful.stored d.disk).hardState ∧
        ∀ event, Keeps settings.nodeId event n.standing.hardState [] n)
      fun d' => (Faithful.stored d'.disk).hardState =
        (Faithful.stored d.disk).hardState := by
  unfold recover
  cases settings.validate with
  | error e => exact rfl
  | ok =>
    have hhard : Durable.onDisk (Storage.inspect Storage.loadHardState) d =
        .ok (Faithful.stored d.disk).hardState d :=
      Durable.onDisk_inspect (Faithful.loadHardState d.disk)
    have hsnapshot : Durable.onDisk (Storage.inspect Storage.loadSnapshot) d =
        .ok (Faithful.stored d.disk).snapshot d :=
      Durable.onDisk_inspect (Faithful.loadSnapshot d.disk)
    refine Ensures.bind_of_ok hhard (Ensures.bind_of_ok hsnapshot ?_)
    refine Ensures.bind (Ensures.onPart ((spares_load _ _ d.disk).mono
      (fun log disk hdisk => ?_) fun disk hdisk => hdisk.hardState))
    refine Ensures.ite (fun _ => hdisk.hardState) fun _ => ?_
    refine Ensures.andThen ((ensures_catchUp _ ⟨disk, d.recorder⟩).mono
      (fun _ _ hd => hd) fun d' hd => ?_) fun applied d' hd => ?_
    · rw [hd.1]
      exact hdisk.hardState
    have hkept : (Faithful.stored d'.disk).hardState =
        (Faithful.stored d.disk).hardState := by
      rw [hd.1]
      exact hdisk.hardState
    refine Ensures.ite (fun _ => hkept) fun _ => ?_
    exact ⟨rfl, rfl, fun event => {
      self := rfl
      stored := hkept
      saved := rfl
      since := le_rfl
      votes := fun hleads => absurd rfl hleads
      pledged := ⟨fun _ hp => absurd hp (by simp [Pledged]),
        fun _ _ hp => absurd hp (by simp [Pledged])⟩
      spoken := fun _ heffect => absurd heffect List.not_mem_nil }⟩

end Node

/-! ## One step -/

namespace Stage

variable [Counting] {id : ℕ} {stage stage' : Stage σ} {moment : Moment}

/-- Term and vote at a stage. -/
def hard : Stage σ → HardState
  | .up n => n.standing.hardState
  | .down disk => (Faithful.stored disk).hardState

/-- A node between two events keeps to what it pledged. -/
def Firm (id : ℕ) : Stage σ → Prop
  | .up n => n.effects = [] ∧
      ∀ event, Node.Keeps id event n.standing.hardState [] n
  | .down _ => True

/-- What one step does to term and vote: they move on from one stage to the next,
and those whom the node backs meanwhile come in between, in order. -/
structure Firmly (id : ℕ) (stage : Stage σ) (moment : Moment)
    (stage' : Stage σ) : Prop where
  firm : stage'.Firm id
  le : stage.hard ≤ stage'.hard
  backed : InOrder stage.hard stage'.hard fun p =>
    ∃ term c, p = ⟨term, some c⟩ ∧ stage.Backs id moment term c
  spoken : Node.Spoken moment.released stage'.hard

/-- For every election that is opened there is a newer term. -/
def HasNextTerm (stage : Stage σ) (moment : Moment) : Prop :=
  ∀ event released n, stage = .up n → moment = .handles event released →
    n.HasNextTerm event

omit [Faithful σ] in
/-- Whom a node backs while nothing leaves it, it backs as a leader. -/
theorem leads_of_backs {term c : ℕ} (hevent : ∀ event released,
      moment ≠ .handles event released)
    (hsilent : ∀ effect ∈ moment.released, effect.term? = none)
    (h : stage.Backs id moment term c) : ∃ n, stage = .up n ∧
      n.standing.role = .leader ∧ n.standing.currentTerm = term ∧ c = id := by
  cases h with
  | granted hmoment => exact absurd hmoment (hevent _ _)
  | asked hreleased =>
      exact absurd (hsilent _ hreleased) (by simp [Effect.term?])
  | won _ hmoment => exact absurd hmoment (hevent _ _)
  | led hup hrole hterm => exact ⟨_, hup, hrole, hterm, rfl⟩

/-- A step in which no event is handled and nothing important is told. -/
theorem Firmly.of_calm (hstage : stage.Firm id) (hfirm : stage'.Firm id)
    (hsame : stage'.hard = stage.hard)
    (hevent : ∀ event released, moment ≠ .handles event released)
    (hsilent : ∀ effect ∈ moment.released, effect.term? = none) :
    Firmly id stage moment stage' := by
  have hnow : ∀ p, (∃ term c, p = ⟨term, some c⟩ ∧
      stage.Backs id moment term c) → p = stage.hard := by
    rintro p ⟨term, c, rfl, hbacks⟩
    obtain ⟨n, rfl, hrole, rfl, rfl⟩ := leads_of_backs hevent hsilent hbacks
    have hvote := (hstage.2 .campaign).votes (by rw [hrole]; simp)
    rw [← hvote]
    rfl
  refine ⟨hfirm, hsame.ge, ⟨fun p hp => ?_, fun p q hp hq => ?_⟩, ?_⟩
  · rw [hnow p hp, hsame]
    exact ⟨le_rfl, le_rfl⟩
  · rw [hnow p hp, hnow q hq]
    exact Or.inl le_rfl
  · intro effect heffect t ht
    exact absurd ((hsilent effect heffect).symm.trans ht) (by simp)

/-- While a node handles an event, it keeps to all that it pledges: to lead on, to
lead once it is elected, and what it tells the outside. -/
theorem exists_ensures_handle {n : Node σ} {event : Event}
    (hn : Node.Keeps id event n.standing.hardState [] n)
    (hterm : n.HasNextTerm event) :
    ∃ led, n.standing.hardState ∈ led ∧
      (∀ m, Node.contest event n = .ok true m → m.standing.hardState ∈ led) ∧
      Ensures (Node.handle event) n
        (fun _ n' => Node.Keeps id event n.standing.hardState led n')
        (Node.Leaves id event n.standing.hardState led) := by
  have hpledged := hn.pledge
  by_cases hwon : ∃ m, Node.contest event n = .ok true m
  · obtain ⟨m, hm⟩ := hwon
    refine ⟨_, ?_, fun m' hm' => ?_, (hpledged.handle_of_won hterm hm).2⟩
    · simp
    · rw [hm] at hm'
      obtain rfl : m = m' := by simpa using hm'
      exact List.mem_cons_self
  · exact ⟨_, List.mem_singleton_self _, fun m hm => absurd ⟨m, hm⟩ hwon,
      hpledged.handle hterm⟩

/-- Whom a node backs while it handles an event, it pledged to. -/
theorem pledged_of_backs {n : Node σ} {event : Event} {released : List Effect}
    {led : List HardState} {term c : ℕ}
    (hn : Node.Keeps id event n.standing.hardState [] n)
    (hterm : n.HasNextTerm event) (hnow : n.standing.hardState ∈ led)
    (hled : ∀ m, Node.contest event n = .ok true m → m.standing.hardState ∈ led)
    (h : (Stage.up n).Backs id (.handles event released) term c) :
    Node.Pledged id event led released ⟨term, some c⟩ := by
  cases h with
  | granted hmoment hreleased hgranted hasked =>
      obtain ⟨rfl, rfl⟩ := Moment.handles.inj hmoment
      refine Or.inr ⟨_, hreleased, ?_⟩
      simp only [Effect.pledge?, hgranted, if_true, hasked]
  | asked hreleased hasked =>
      refine Or.inr ⟨_, hreleased, ?_⟩
      simp only [Effect.pledge?, hasked]
  | won hup hmoment hwon hcurrent =>
      obtain rfl := Stage.up.inj hup
      obtain ⟨rfl, rfl⟩ := Moment.handles.inj hmoment
      rw [← hcurrent, ← (hn.handle_of_won hterm hwon).1]
      exact Or.inl (hled _ hwon)
  | led hup hrole hterm =>
      obtain rfl := Stage.up.inj hup
      rw [← hterm, ← hn.votes (by rw [hrole]; simp)]
      exact Or.inl hnow

omit [Storage σ] [Faithful σ] [Counting] in
theorem silent_stop (n : Node σ) (hnew : n.effects = []) :
    ∀ effect ∈ n.stop.effects, effect.term? = none := by
  have haside : Node.Aside n n.stop :=
    (Node.aside_stopReplication n).trans (Node.aside_dismissWaiters _ _ _)
  obtain ⟨more, hmore, hslight⟩ := haside.effects
  rw [hmore, hnew]
  exact fun effect heffect => (hslight effect heffect).term?

/-- Whom a node backs in a step of its life comes in between, in order. -/
theorem Step.firmly (h : Step id stage moment stage') (hstage : stage.Firm id)
    (hterms : stage.HasNextTerm moment) :
    Firmly id stage moment stage' := by
  cases h with
  | @handled event n n' hrun =>
      have hn := hstage.2 event
      have hterm := hterms event _ n rfl rfl
      obtain ⟨led, hnow, hled, hensures⟩ := exists_ensures_handle hn hterm
      have hkeeps := hensures.ok hrun
      refine ⟨⟨rfl, hkeeps.rest⟩, hkeeps.since, ?_, hkeeps.spoken⟩
      refine hkeeps.pledged.extend hkeeps.since le_rfl ?_
      rintro p ⟨term, c, rfl, hbacks⟩
      exact Or.inl (pledged_of_backs hn hterm hnow hled hbacks)
  | @failed event n n' e hrun =>
      have hn := hstage.2 event
      have hterm := hterms event _ n rfl rfl
      obtain ⟨led, hnow, hled, hensures⟩ := exists_ensures_handle hn hterm
      have hleaves := hensures.error hrun
      refine ⟨trivial, hleaves.since, ?_, hleaves.spoken⟩
      refine hleaves.pledged.extend hleaves.since le_rfl ?_
      rintro p ⟨term, c, rfl, hbacks⟩
      exact Or.inl (pledged_of_backs hn hterm hnow hled hbacks)
  | @stopped n =>
      exact .of_calm hstage trivial (hstage.2 .campaign).stored (by simp)
        (silent_stop n hstage.1)
  | @started settings disk disk' recorder d n hself hkept hrun =>
      rw [Faithful.loadHardState, Faithful.loadHardState] at hkept
      obtain ⟨hnew, hhard, hkeeps⟩ := (Node.keeps_recover settings _).ok hrun
      exact .of_calm hstage ⟨hnew, hself ▸ hkeeps⟩
        (hhard.trans (Except.ok.inj hkept)) (by simp) (by simp [Moment.released])
  | @refused settings disk disk' recorder d e hself hkept hrun =>
      rw [Faithful.loadHardState, Faithful.loadHardState] at hkept
      have hhard := (Node.keeps_recover settings _).error hrun
      exact .of_calm hstage trivial (hhard.trans (Except.ok.inj hkept)) (by simp)
        (by simp [Moment.released])
  | idle => exact .of_calm hstage hstage rfl (by simp) (by simp [Moment.released])

end Stage

/-! ## All steps -/

namespace Life

attribute [local instance] Counting.words

variable {id : ℕ} {l : Life σ id} (hterms : l.HasTerms)
include hterms

omit [Faithful σ] in
theorem HasTerms.hasNextTerm (k : ℕ) :
    (l.stage k).HasNextTerm (l.moment k) := by
  intro event released n hup hmoment helects
  rw [Counting.words_nextTerm (hterms k event released n hup hmoment helects)]
  exact Nat.lt_succ_self _

theorem firm (k : ℕ) : (l.stage k).Firm id := by
  induction k with
  | zero =>
      obtain ⟨disk, hdisk⟩ := l.first
      rw [hdisk]
      exact trivial
  | succ k ih => exact ((l.step k).firmly ih (hterms.hasNextTerm k)).firm

theorem firmly (k : ℕ) : Stage.Firmly id (l.stage k) (l.moment k)
    (l.stage (k + 1)) :=
  (l.step k).firmly (firm hterms k) (hterms.hasNextTerm k)

/-- Term and vote move on all the time. -/
theorem hard_mono : Monotone fun k => (l.stage k).hard :=
  monotone_nat_of_le_succ fun k => (firmly hterms k).le

variable {k k' term c c' : ℕ}

/-- Whom the node backs later, it backs with a later hard state. -/
theorem le_of_backs (hlt : k < k') (h : l.Backs k term c) (h' : l.Backs k' term c') :
    (⟨term, some c⟩ : HardState) ≤ ⟨term, some c'⟩ :=
  calc (⟨term, some c⟩ : HardState)
    _ ≤ (l.stage (k + 1)).hard :=
      ((firmly hterms k).backed.between _ ⟨term, c, rfl, h⟩).2
    _ ≤ (l.stage k').hard := hard_mono hterms hlt
    _ ≤ ⟨term, some c'⟩ :=
      ((firmly hterms k').backed.between _ ⟨term, c', rfl, h'⟩).1

theorem oneCandidate : l.OneCandidate := by
  intro k k' term c c' h h'
  rcases lt_trichotomy k k' with hlt | rfl | hlt
  · exact HardState.candidate_eq (le_of_backs hterms hlt h h')
  · rcases (firmly hterms k).backed.ordered _ _ ⟨term, c, rfl, h⟩
      ⟨term, c', rfl, h'⟩ with hle | hle
    · exact HardState.candidate_eq hle
    · exact (HardState.candidate_eq hle).symm
  · exact (HardState.candidate_eq (le_of_backs hterms hlt h' h)).symm

/-- What the node tells of is not beyond its term when the step is over. -/
theorem term_le_of_tells (h : l.Tells k term) :
    term ≤ (l.stage (k + 1)).hard.currentTerm := by
  rcases h with ⟨c, hbacks⟩ | ⟨effect, heffect, hterm⟩
  · exact HardState.currentTerm_le
      ((firmly hterms k).backed.between _ ⟨term, c, rfl, hbacks⟩).2
  · exact (firmly hterms k).spoken effect heffect term hterm

theorem remembers : l.Remembers := by
  intro k k' term n htells hlt hup
  have hle := HardState.currentTerm_le (hard_mono hterms hlt)
  dsimp only at hle
  rw [hup] at hle
  exact (term_le_of_tells hterms htells).trans hle

end Life

/-! ## A few events after a start -/

namespace Life

/-- The life of a node that starts, handles so many events, and then rests. -/
def along {settings : Settings} {disk : σ} {recorder : Recorder} {d : Durable σ}
    {n : Node σ} (hrun : @Node.recover σ _ .words settings ⟨disk, recorder⟩ = .ok n d)
    (event : ℕ → Event) (length : ℕ)
    (hwell : ∀ k < length, (outcome (@Node.handle σ _ .words (event k))
      (@Node.along σ _ .words n event k)).1 = .ok ()) : Life σ settings.nodeId where
  stage
    | 0 => .down disk
    | k + 1 => .up (@Node.along σ _ .words n event (min k length))
  moment
    | 0 => .starts
    | k + 1 =>
      if k < length then
        .handles (event k) (outcome (@Node.handle σ _ .words (event k))
          (@Node.along σ _ .words n event k)).2.effects
      else .idle
  first := ⟨disk, rfl⟩
  step
    | 0 => by
      dsimp only
      rw [Nat.zero_min]
      exact @Stage.Step.started σ _ .words _ _ _ _ _ _ _ rfl rfl hrun
    | k + 1 => by
      dsimp only
      by_cases hlt : k < length
      · rw [if_pos hlt, Nat.min_eq_left hlt.le, Nat.min_eq_left hlt]
        exact @Stage.Step.handled σ _ .words _ _ _ _ (eq_ok_of_outcome (hwell k hlt))
      · have hle := not_lt.mp hlt
        rw [if_neg hlt, Nat.min_eq_right hle, Nat.min_eq_right (hle.trans (Nat.le_succ k))]
        exact @Stage.Step.idle σ _ .words _ _

omit [Faithful σ] in
/-- While the node handles an event it grants the vote that was asked for. -/
theorem backs_along {settings : Settings} {disk : σ} {recorder : Recorder} {d : Durable σ}
    {n : Node σ} {event : ℕ → Event} {length : ℕ}
    {hrun : @Node.recover σ _ .words settings ⟨disk, recorder⟩ = .ok n d}
    {hwell : ∀ k < length, (outcome (@Node.handle σ _ .words (event k))
      (@Node.along σ _ .words n event k)).1 = .ok ()} {k : ℕ} (hlt : k < length)
    {asked ticket term c lastIndex lastTerm : ℕ} {reply : VoteReply}
    (hevent : event k = .voteRequest asked ⟨term, c, lastIndex, lastTerm⟩)
    (hreleased : .answer ticket (.vote reply) ∈ (outcome (@Node.handle σ _ .words (event k))
      (@Node.along σ _ .words n event k)).2.effects)
    (hgranted : reply.granted = true) :
    (along hrun event length hwell).Backs (k + 1) term c := by
  refine @Stage.Backs.granted σ _ .words _ _ _ _ asked ticket
    ⟨term, c, lastIndex, lastTerm⟩ reply _ ?_ hreleased hgranted rfl
  change (if k < length then _ else _) = _
  rw [if_pos hlt, hevent]

/-! ## An election after a vote -/

theorem recover_fresh : @Node.recover Memory _ .words { members := [1, 2, 3] } ⟨{}, {}⟩ =
    .ok (.fresh { members := [1, 2, 3] } ⟨{}, {}⟩) ⟨{}, {}⟩ := rfl

/-- A node of three votes for another one, and stands for election itself after that. -/
def votingTurn : ℕ → Event
  | 0 => .voteRequest 0 ⟨1, 2, 0, 0⟩
  | 1 => .campaign
  | _ => .voteRequest 1 ⟨2, 3, 0, 0⟩

def votingNode : ℕ → Node Memory :=
  @Node.along Memory _ .words (.fresh { members := [1, 2, 3] } ⟨{}, {}⟩) votingTurn

theorem well_votingTurn (k : ℕ) (hlt : k < 3) :
    (outcome (@Node.handle Memory _ .words (votingTurn k)) (votingNode k)).1 = .ok () := by
  interval_cases k
  all_goals decide +kernel

def voting : Life Memory 1 := along recover_fresh votingTurn 3 well_votingTurn

theorem hasTerms_voting : voting.HasTerms := by
  intro k event released n hup hmoment helects
  cases k with
  | zero => exact absurd hup (by simp [voting, along])
  | succ k =>
    obtain rfl := Stage.up.inj hup
    change (if k < 3 then _ else _) = _ at hmoment
    split at hmoment
    · next hlt =>
      obtain ⟨rfl, -⟩ := Moment.handles.inj hmoment
      change (votingNode (min k 3)).standing.currentTerm + 1 < wordBound
      interval_cases k
      all_goals decide +kernel
    · exact absurd hmoment (by simp)

/-- A node votes in term 1, hears of the last term of all, and stands for election. -/
def wrappingTurn : ℕ → Event
  | 0 => .voteRequest 0 ⟨1, 2, 0, 0⟩
  | 1 => .voteRequest 1 ⟨wordBound - 1, 2, 0, 0⟩
  | 2 => .campaign
  | _ => .voteRequest 2 ⟨1, 3, 0, 0⟩

def wrappingNode : ℕ → Node Memory :=
  @Node.along Memory _ .words (.fresh { members := [1, 2, 3] } ⟨{}, {}⟩) wrappingTurn

theorem well_wrappingTurn (k : ℕ) (hlt : k < 4) :
    (outcome (@Node.handle Memory _ .words (wrappingTurn k)) (wrappingNode k)).1 = .ok () := by
  interval_cases k
  all_goals decide +kernel

def wrapping : Life Memory 1 := along recover_fresh wrappingTurn 4 well_wrappingTurn

end Life

end Consensus
