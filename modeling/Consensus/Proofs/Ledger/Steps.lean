import Consensus.Proofs.Ledger.Completeness

/-!
# How the ledger grows

Whatever happens to a node amounts to a few entries in the ledger: it enters a
term, stands for election, votes, wins, appends to its own log, or takes over
entries of a leader.  Each of these keeps the ledger sound and leaves everyone
else's part alone.
-/

namespace Consensus.Ledger

variable {S : Scope} {ℓ ℓ' ℓ'' : Ledger} {node : ℕ}

/-! ## What one node can change -/

/-- The ledger grew by what `node` did. -/
structure Moves (node : ℕ) (ℓ ℓ' : Ledger) : Prop extends Grows ℓ ℓ' where
  other_term : ∀ other, other ≠ node → ℓ'.term other = ℓ.term other
  other_log : ∀ other, other ≠ node → ℓ'.log other = ℓ.log other
  other_vote : ∀ other, other ≠ node → ℓ'.vote other = ℓ.vote other
  other_lead : ∀ term e, ℓ.election term = some e → e.leader ≠ node →
    ℓ'.lead term = ℓ.lead term
  other_election : ∀ term e, ℓ'.election term = some e → e.leader ≠ node →
    ℓ.election term = some e

theorem Moves.refl (node : ℕ) (ℓ : Ledger) : Moves node ℓ ℓ where
  toGrows := Grows.refl ℓ
  other_term _ _ := rfl
  other_log _ _ := rfl
  other_vote _ _ := rfl
  other_lead _ _ _ _ := rfl
  other_election _ _ h _ := h

theorem Moves.trans (h : Moves node ℓ ℓ') (h' : Moves node ℓ' ℓ'') :
    Moves node ℓ ℓ'' where
  toGrows := h.toGrows.trans h'.toGrows
  other_term other hne := by rw [h'.other_term other hne, h.other_term other hne]
  other_log other hne := by rw [h'.other_log other hne, h.other_log other hne]
  other_vote other hne := by rw [h'.other_vote other hne, h.other_vote other hne]
  other_lead term e he hne := by
    rw [h'.other_lead term e (h.election term e he) hne,
      h.other_lead term e he hne]
  other_election term e he hne :=
    h.other_election term e (h'.other_election term e he hne) hne

/-! ## The beginning -/

/-- Nothing has happened. -/
def empty : Ledger where
  term _ := 0
  log _ := []
  vote _ _ := none
  candidacy _ _ := none
  election _ := none
  lead _ := []
  held _ _ := 0

theorem sound_empty (S : Scope) : Sound S empty where
  lead term := {
    grounded := grounded_nil
    numbered := fun k entry hk => by simp [empty] at hk
    chained := fun before entry after members h => by simp [empty] at h
    term_le := fun entry h => by simp [empty] at h
    fixed := fun _ => rfl
    silent := fun _ => rfl
    start := fun e h => by simp [empty] at h
    own := fun e h => by simp [empty] at h }
  node id := {
    grounded := grounded_nil
    term_le := fun entry h => by simp [empty] at h
    held_le := fun _ => le_rfl
    held_term := fun t h => absurd h (Nat.lt_irrefl 0)
    kept := fun t n _ => Or.inl (by simp [empty]) }
  candidacy _ _ _ h := by simp [empty] at h
  vote _ _ _ h := by simp [empty] at h
  election _ _ h := by simp [empty] at h

/-! ## Entering a term -/

/-- The node enters a term, unless it is there or beyond it already. -/
def observe (ℓ : Ledger) (node term : ℕ) : Ledger :=
  { ℓ with term := Function.update ℓ.term node (max (ℓ.term node) term) }

theorem moves_observe (ℓ : Ledger) (node term : ℕ) :
    Moves node ℓ (ℓ.observe node term) where
  term_le other := by
    by_cases hother : other = node
    · subst hother
      simp [observe]
    · simp [observe, Function.update_of_ne hother]
  vote _ _ _ h := h
  candidacy _ _ _ h := h
  election _ _ h := h
  lead _ := List.prefix_rfl
  held_le _ _ := le_rfl
  closed _ _ _ := rfl
  other_term other hne := Function.update_of_ne hne _ _
  other_log _ _ := rfl
  other_vote _ _ := rfl
  other_lead _ _ _ _ := rfl
  other_election _ _ h _ := h

theorem Sound.observe (hsound : Sound S ℓ) (node term : ℕ) :
    Sound S (ℓ.observe node term) := by
  have hgrows := (moves_observe ℓ node term).toGrows
  exact {
    lead := fun t => (hsound.lead t).mono hgrows rfl rfl
    node := fun other => (hsound.node other).mono hgrows rfl rfl
    candidacy := fun other t c hc => (hsound.candidacy other t c hc).mono hgrows
    vote := fun other t c hc =>
      (hsound.vote other t c hc).mono (hsound.node other) hgrows
    election := fun t e he => (hsound.election t e he).mono hsound hgrows }

/-! ## Standing for election -/

/-- The node enters the next term and votes for itself. -/
def stand (ℓ : Ledger) (node known : ℕ) : Ledger :=
  { ℓ with
    term := Function.update ℓ.term node (ℓ.term node + 1)
    candidacy := Function.update ℓ.candidacy node
      (Function.update (ℓ.candidacy node) (ℓ.term node + 1)
        (some ⟨ℓ.log node, known⟩))
    vote := Function.update ℓ.vote node
      (Function.update (ℓ.vote node) (ℓ.term node + 1) (some node)) }

theorem stand_vote (ℓ : Ledger) (node known : ℕ) :
    (ℓ.stand node known).vote node (ℓ.term node + 1) = some node := by
  simp [stand]

theorem stand_candidacy (ℓ : Ledger) (node known : ℕ) :
    (ℓ.stand node known).candidacy node (ℓ.term node + 1) =
      some ⟨ℓ.log node, known⟩ := by
  simp [stand]

theorem stand_vote_cases {known other term candidate : ℕ}
    (h : (ℓ.stand node known).vote other term = some candidate) :
    (other = node ∧ term = ℓ.term node + 1 ∧ candidate = node) ∨
      ℓ.vote other term = some candidate := by
  by_cases hother : other = node
  · subst hother
    by_cases hterm : term = ℓ.term other + 1
    · subst hterm
      rw [stand_vote] at h
      exact Or.inl ⟨rfl, rfl, (Option.some.inj h).symm⟩
    · exact Or.inr (by simpa [stand, Function.update_of_ne hterm] using h)
  · exact Or.inr (by simpa [stand, Function.update_of_ne hother] using h)

theorem stand_candidacy_cases {known other term : ℕ} {c : Candidacy}
    (h : (ℓ.stand node known).candidacy other term = some c) :
    (other = node ∧ term = ℓ.term node + 1 ∧ c = ⟨ℓ.log node, known⟩) ∨
      ℓ.candidacy other term = some c := by
  by_cases hother : other = node
  · subst hother
    by_cases hterm : term = ℓ.term other + 1
    · subst hterm
      rw [stand_candidacy] at h
      exact Or.inl ⟨rfl, rfl, (Option.some.inj h).symm⟩
    · exact Or.inr (by simpa [stand, Function.update_of_ne hterm] using h)
  · exact Or.inr (by simpa [stand, Function.update_of_ne hother] using h)

theorem moves_stand (hsound : Sound S ℓ) (node known : ℕ) :
    Moves node ℓ (ℓ.stand node known) where
  term_le other := by
    by_cases hother : other = node
    · subst hother
      simp [stand]
    · simp [stand, Function.update_of_ne hother]
  vote other term candidate h := by
    have hle := (hsound.vote other term candidate h).term_le
    by_cases hother : other = node
    · subst hother
      have hterm : term ≠ ℓ.term other + 1 := by omega
      simpa [stand, Function.update_of_ne hterm] using h
    · simpa [stand, Function.update_of_ne hother] using h
  candidacy other term c h := by
    have hle := (hsound.candidacy other term c h).term_le
    by_cases hother : other = node
    · subst hother
      have hterm : term ≠ ℓ.term other + 1 := by omega
      simpa [stand, Function.update_of_ne hterm] using h
    · simpa [stand, Function.update_of_ne hother] using h
  election _ _ h := h
  lead _ := List.prefix_rfl
  held_le _ _ := le_rfl
  closed _ _ _ := rfl
  other_term other hne := Function.update_of_ne hne _ _
  other_log _ _ := rfl
  other_vote other hne := Function.update_of_ne hne _ _
  other_lead _ _ _ _ := rfl
  other_election _ _ h _ := h

theorem Sound.stand (hsound : Sound S ℓ) {known : ℕ}
    (hknown : known ≤ (ℓ.log node).length)
    (hsettled : Settled S ℓ (ℓ.term node + 1) ((ℓ.log node).take known))
    (hpending : changes ((ℓ.log node).drop known) ≤ 1) :
    Sound S (ℓ.stand node known) := by
  have hgrows := (moves_stand hsound node known).toGrows
  have hterm : (ℓ.stand node known).term node = ℓ.term node + 1 := by
    simp [Ledger.stand]
  have hnode := hsound.node node
  refine {
    lead := fun t => (hsound.lead t).mono hgrows rfl rfl
    node := fun other => (hsound.node other).mono hgrows rfl rfl
    candidacy := ?_
    vote := ?_
    election := fun t e he => (hsound.election t e he).mono hsound hgrows }
  · intro other term c hc
    rcases stand_candidacy_cases hc with ⟨rfl, rfl, rfl⟩ | hold
    · exact {
        grounded := hnode.grounded.mono hgrows
        term_lt := fun entry hentry =>
          Nat.lt_succ_of_le (hnode.term_le entry hentry)
        term_le := hterm.ge
        known_le := hknown
        settled := hsettled.mono hgrows le_rfl
        pending := hpending }
    · exact (hsound.candidacy other term c hold).mono hgrows
  · intro other term candidate hvote
    rcases stand_vote_cases hvote with ⟨rfl, rfl, rfl⟩ | hold
    · refine ⟨hterm.ge, _, stand_candidacy ℓ candidate known, ?_⟩
      intro t n _ hn _
      exact (hnode.kept t n hn).imp_right fun hover =>
        hover.mono hgrows (Nat.le_succ _)
    · exact (hsound.vote other term candidate hold).mono (hsound.node other)
        hgrows

/-! ## Voting -/

/-- The node votes in its current term. -/
def grant (ℓ : Ledger) (node candidate : ℕ) : Ledger :=
  { ℓ with
    vote := Function.update ℓ.vote node
      (Function.update (ℓ.vote node) (ℓ.term node) (some candidate)) }

/-- The second log is at least as complete as the first. -/
def UpToDate (log other : List Entry) : Prop :=
  lastTerm log < lastTerm other ∨
    lastTerm other = lastTerm log ∧ log.length ≤ other.length

theorem moves_grant {candidate : ℕ}
    (hfree : ∀ c, ℓ.vote node (ℓ.term node) = some c → c = candidate) :
    Moves node ℓ (ℓ.grant node candidate) where
  term_le _ := le_rfl
  vote other term c h := by
    by_cases hother : other = node
    · subst hother
      by_cases hterm : term = ℓ.term other
      · subst hterm
        simp [grant, hfree c h]
      · simpa [grant, Function.update_of_ne hterm] using h
    · simpa [grant, Function.update_of_ne hother] using h
  candidacy _ _ _ h := h
  election _ _ h := h
  lead _ := List.prefix_rfl
  held_le _ _ := le_rfl
  closed _ _ _ := rfl
  other_term _ _ := rfl
  other_log _ _ := rfl
  other_vote other hne := Function.update_of_ne hne _ _
  other_lead _ _ _ _ := rfl
  other_election _ _ h _ := h

/-- Terms do not fall along a grounded log. -/
theorem Sound.term_le_lastTerm (hsound : Sound S ℓ) {xs ys : List Entry}
    {term : ℕ} (hys : ℓ.Grounded ys) (hends : EndsIn term xs) (hle : xs <+: ys) :
    term ≤ lastTerm ys := by
  have hne : ys ≠ [] := by
    rintro rfl
    exact hends.ne_nil (List.prefix_nil.mp hle)
  obtain ⟨entry, hlast, rfl⟩ := hends
  have hmem : entry ∈ ys := hle.subset (List.mem_of_getLast? hlast)
  have hlead := hys.isPrefix_lead (endsIn_lastTerm hne)
  exact (hsound.lead (lastTerm ys)).term_le entry (hlead.subset hmem)

/-- A log with an entry of a leader's own has all that this leader started
with. -/
theorem Sound.start_isPrefix (hsound : Sound S ℓ) {term : ℕ} {e : Election}
    {entries : List Entry} (helection : ℓ.election term = some e)
    (hends : EndsIn term entries) (hle : entries <+: ℓ.lead term) :
    e.start.log <+: entries := by
  have hstart := (hsound.lead term).start e helection
  rcases Nat.le_total e.start.log.length entries.length with hlen | hlen
  · exact isPrefix_of_length_le hstart hle hlen
  · have hinside := isPrefix_of_length_le hle hstart hlen
    obtain ⟨entry, hlast, hentry⟩ := hends
    have hmem := hinside.subset (List.mem_of_getLast? hlast)
    have hlt := (hsound.campaign_of_election helection).sound.term_lt entry hmem
    omega

/-- A candidate that is up to date carries all that the voter still has. -/
theorem Sound.isPrefix_of_upToDate (hsound : Sound S ℓ) {log other xs : List Entry}
    {t term : ℕ} (hlog : ℓ.Grounded log) (hother : ℓ.Grounded other)
    (hlt : ∀ entry ∈ other, entry.term < term) (hfresh : UpToDate log other)
    (hends : EndsIn t xs) (hlead : xs <+: ℓ.lead t) (hxs : xs <+: log) :
    xs <+: other ∨ ℓ.Overruled t term xs := by
  have hle := hsound.term_le_lastTerm hlog hends hxs
  have hpos : 0 < xs.length := List.length_pos_iff.mpr hends.ne_nil
  have hlen := hxs.length_le
  have hne : other ≠ [] := by
    rintro rfl
    rcases hfresh with hterm | ⟨-, hshort⟩
    · exact Nat.not_lt_zero _ hterm
    · have hzero : log.length ≤ 0 := hshort
      omega
  have hendsOther := endsIn_lastTerm hne
  have hotherLead := hother.isPrefix_lead hendsOther
  have hterm : t ≤ lastTerm other := by
    rcases hfresh with h | ⟨h, -⟩ <;> omega
  rcases Nat.eq_or_lt_of_le hterm with heq | hgt
  · -- both are parts of one leader's log, and the candidate's is the longer
    rw [← heq] at hotherLead
    refine Or.inl (isPrefix_of_length_le hlead hotherLead ?_)
    rcases hfresh with h | ⟨-, hshort⟩ <;> omega
  · have hnonempty : ℓ.lead (lastTerm other) ≠ [] := by
      intro hnil
      rw [hnil] at hotherLead
      exact hne (List.prefix_nil.mp hotherLead)
    obtain ⟨e, helection⟩ := hsound.exists_election hnonempty
    by_cases hstart : xs <+: e.start.log
    · exact Or.inl (hstart.trans
        (hsound.start_isPrefix helection hendsOther hotherLead))
    · refine Or.inr ⟨lastTerm other, e, hgt, ?_, helection, hstart⟩
      obtain ⟨entry, hlast, hentry⟩ := hendsOther
      have := hlt entry (List.mem_of_getLast? hlast)
      omega

theorem Sound.grant (hsound : Sound S ℓ) {candidate : ℕ} {c : Candidacy}
    (hfree : ∀ c, ℓ.vote node (ℓ.term node) = some c → c = candidate)
    (hstood : ℓ.candidacy candidate (ℓ.term node) = some c)
    (hfresh : UpToDate (ℓ.log node) c.log) :
    Sound S (ℓ.grant node candidate) := by
  have hgrows := (moves_grant hfree).toGrows
  have hnode := hsound.node node
  have hcandidacy := hsound.candidacy candidate (ℓ.term node) c hstood
  refine {
    lead := fun t => (hsound.lead t).mono hgrows rfl rfl
    node := fun other => (hsound.node other).mono hgrows rfl rfl
    candidacy := fun other t c hc => (hsound.candidacy other t c hc).mono hgrows
    vote := ?_
    election := fun t e he => (hsound.election t e he).mono hsound hgrows }
  intro other term voted hvote
  by_cases hold : ℓ.vote other term = some voted
  · exact (hsound.vote other term voted hold).mono (hsound.node other) hgrows
  · obtain ⟨rfl, rfl, rfl⟩ :
        other = node ∧ term = ℓ.term node ∧ voted = candidate := by
      by_cases hother : other = node
      · subst hother
        by_cases hterm : term = ℓ.term other
        · subst hterm
          simp only [Ledger.grant, Function.update_self, Option.some.injEq] at hvote
          exact ⟨rfl, rfl, hvote.symm⟩
        · exact absurd (by simpa [Ledger.grant, Function.update_of_ne hterm]
            using hvote) hold
      · exact absurd (by simpa [Ledger.grant, Function.update_of_ne hother]
          using hvote) hold
    refine ⟨le_rfl, c, hstood, ?_⟩
    intro t n ht hn hends
    have hover : ∀ bound, bound ≤ ℓ.term other + 1 →
        ℓ.Overruled t bound ((ℓ.lead t).take n) →
          (ℓ.grant other voted).Overruled t (ℓ.term other + 1)
            ((ℓ.lead t).take n) :=
      fun bound hbound h => h.mono hgrows hbound
    rcases hnode.kept t n hn with hin | h
    · exact (hsound.isPrefix_of_upToDate hnode.grounded hcandidacy.grounded
        hcandidacy.term_lt hfresh hends (List.take_prefix _ _) hin).imp_right
          (hover _ (Nat.le_succ _))
    · exact Or.inr (hover _ le_rfl h)

/-! ## Winning an election -/

/-- The node wins the election of its term. -/
def elect (ℓ : Ledger) (node : ℕ) (voters : NodeSet) (c : Candidacy) : Ledger :=
  { ℓ with
    election := Function.update ℓ.election (ℓ.term node) (some ⟨node, voters, c⟩)
    lead := Function.update ℓ.lead (ℓ.term node) c.log }

theorem elect_election (ℓ : Ledger) (node : ℕ) (voters : NodeSet)
    (c : Candidacy) :
    (ℓ.elect node voters c).election (ℓ.term node) = some ⟨node, voters, c⟩ := by
  simp [elect]

theorem elect_lead (ℓ : Ledger) (node : ℕ) (voters : NodeSet) (c : Candidacy) :
    (ℓ.elect node voters c).lead (ℓ.term node) = c.log := by
  simp [elect]

theorem elect_election_of_ne {term : ℕ} (h : term ≠ ℓ.term node)
    (voters : NodeSet) (c : Candidacy) :
    (ℓ.elect node voters c).election term = ℓ.election term :=
  Function.update_of_ne h _ _

theorem elect_lead_of_ne {term : ℕ} (h : term ≠ ℓ.term node)
    (voters : NodeSet) (c : Candidacy) :
    (ℓ.elect node voters c).lead term = ℓ.lead term :=
  Function.update_of_ne h _ _

theorem moves_elect (hsound : Sound S ℓ) {voters : NodeSet} {c : Candidacy}
    (hnone : ℓ.election (ℓ.term node) = none) :
    Moves node ℓ (ℓ.elect node voters c) where
  term_le _ := le_rfl
  vote _ _ _ h := h
  candidacy _ _ _ h := h
  election term e h := by
    have hterm : term ≠ ℓ.term node := by
      rintro rfl
      rw [hnone] at h
      exact absurd h (by simp)
    rw [elect_election_of_ne hterm]
    exact h
  lead term := by
    by_cases hterm : term = ℓ.term node
    · subst hterm
      rw [(hsound.lead _).silent hnone]
      exact List.nil_prefix
    · rw [elect_lead_of_ne hterm]
  held_le _ _ := le_rfl
  closed _ _ _ := rfl
  other_term _ _ := rfl
  other_log _ _ := rfl
  other_vote _ _ := rfl
  other_lead term e h _ := by
    have hterm : term ≠ ℓ.term node := by
      rintro rfl
      rw [hnone] at h
      exact absurd h (by simp)
    exact elect_lead_of_ne hterm _ _
  other_election term e h hne := by
    by_cases hterm : term = ℓ.term node
    · subst hterm
      rw [elect_election] at h
      exact absurd (by rw [← Option.some.inj h]) hne
    · rwa [elect_election_of_ne hterm] at h

theorem Sound.elect (hsound : Sound S ℓ) {voters : NodeSet} {c : Candidacy}
    (hnone : ℓ.election (ℓ.term node) = none)
    (hstood : ℓ.candidacy node (ℓ.term node) = some c)
    (hquorum : (membersAfter S.members
      (c.log.take c.known)).hasQuorum voters = true)
    (hvotes : ∀ id ∈ voters, ℓ.vote id (ℓ.term node) = some node) :
    Sound S (ℓ.elect node voters c) := by
  have hgrows : Grows ℓ (ℓ.elect node voters c) :=
    (moves_elect hsound hnone).toGrows
  have hcampaign := hsound.campaign_of_votes hstood hquorum hvotes
  have hcandidacy := hcampaign.sound
  refine {
    lead := ?_
    node := fun other => (hsound.node other).mono hgrows rfl rfl
    candidacy := fun other t c hc => (hsound.candidacy other t c hc).mono hgrows
    vote := fun other t c hc =>
      (hsound.vote other t c hc).mono (hsound.node other) hgrows
    election := ?_ }
  · intro term
    by_cases hterm : term = ℓ.term node
    · subst hterm
      have hlead := elect_lead ℓ node voters c
      have helection := elect_election ℓ node voters c
      refine {
        grounded := ?_, numbered := ?_, chained := ?_, term_le := ?_
        fixed := ?_, silent := ?_, start := ?_, own := ?_ }
      · rw [hlead]
        exact hcandidacy.grounded.mono hgrows
      · rw [hlead]
        exact hsound.numbered hcandidacy.grounded
      · rw [hlead]
        exact hsound.chained hcandidacy.grounded
      · rw [hlead]
        exact fun entry hentry => (hcandidacy.term_lt entry hentry).le
      · rw [hlead]
        exact hsound.changes_eq_zero hcandidacy.grounded
      · rw [helection]
        simp
      · intro e he
        rw [hlead, ← Option.some.inj (helection.symm.trans he)]
      · intro e he k entry hk hlen
        rw [← Option.some.inj (helection.symm.trans he)] at hlen
        rw [hlead] at hk
        have hlt := (List.getElem?_eq_some_iff.mp hk).1
        exact absurd hlen (by simpa using hlt)
    · exact (hsound.lead term).mono hgrows (elect_lead_of_ne hterm _ _)
        (elect_election_of_ne hterm _ _)
  · intro term e he
    by_cases hterm : term = ℓ.term node
    · subst hterm
      rw [elect_election] at he
      rw [← Option.some.inj he]
      refine ⟨hstood, hquorum, hvotes, fun id hid => ?_⟩
      refine Carries.mono ?_ (hsound.node id)
        (hsound.vote id _ node (hvotes id hid)).term_le hgrows
      -- no leader of this term yet, so none that overrules
      intro t n ht hn hends
      refine (hcampaign.carried id hid t n ht hn hends).imp_right ?_
      rintro ⟨later, e', hlt, hlater, he', hnot⟩
      have hlaterNe : later ≠ ℓ.term node := by
        rintro rfl
        rw [hnone] at he'
        exact absurd he' (by simp)
      exact ⟨later, e', hlt, by omega, he', hnot⟩
    · rw [elect_election_of_ne hterm] at he
      exact (hsound.election term e he).mono hsound hgrows

/-! ## Appending as a leader -/

/-- The leader of its term appends an entry. -/
def append (ℓ : Ledger) (node : ℕ) (entry : Entry) : Ledger :=
  { ℓ with
    lead := Function.update ℓ.lead (ℓ.term node) (ℓ.log node ++ [entry])
    log := Function.update ℓ.log node (ℓ.log node ++ [entry])
    held := Function.update ℓ.held node
      (Function.update (ℓ.held node) (ℓ.term node) ((ℓ.log node).length + 1)) }

theorem append_lead (ℓ : Ledger) (node : ℕ) (entry : Entry) :
    (ℓ.append node entry).lead (ℓ.term node) = ℓ.log node ++ [entry] := by
  simp [append]

theorem append_log (ℓ : Ledger) (node : ℕ) (entry : Entry) :
    (ℓ.append node entry).log node = ℓ.log node ++ [entry] := by
  simp [append]

theorem append_held (ℓ : Ledger) (node : ℕ) (entry : Entry) :
    (ℓ.append node entry).held node (ℓ.term node) =
      (ℓ.log node).length + 1 := by
  simp [append]

theorem append_lead_of_ne {term : ℕ} (h : term ≠ ℓ.term node) (entry : Entry) :
    (ℓ.append node entry).lead term = ℓ.lead term :=
  Function.update_of_ne h _ _

theorem append_held_of_ne {term : ℕ} (h : term ≠ ℓ.term node) (entry : Entry) :
    (ℓ.append node entry).held node term = ℓ.held node term := by
  simp [append, Function.update_of_ne h]

theorem moves_append (hsound : Sound S ℓ) {entry : Entry} {e : Election}
    (helection : ℓ.election (ℓ.term node) = some e) (hleader : e.leader = node)
    (hlog : ℓ.lead (ℓ.term node) = ℓ.log node) :
    Moves node ℓ (ℓ.append node entry) where
  term_le _ := le_rfl
  vote _ _ _ h := h
  candidacy _ _ _ h := h
  election _ _ h := h
  lead term := by
    by_cases hterm : term = ℓ.term node
    · subst hterm
      rw [append_lead, hlog]
      exact List.prefix_append _ _
    · rw [append_lead_of_ne hterm]
  held_le other term := by
    by_cases hother : other = node
    · subst hother
      by_cases hterm : term = ℓ.term other
      · subst hterm
        have hle := (hsound.node other).held_le (ℓ.term other)
        rw [append_held, ← hlog]
        omega
      · rw [append_held_of_ne hterm]
    · simp [append, Function.update_of_ne hother]
  closed other term hlt := by
    by_cases hother : other = node
    · subst hother
      exact append_held_of_ne hlt.ne entry
    · simp [append, Function.update_of_ne hother]
  other_term _ _ := rfl
  other_log other hne := Function.update_of_ne hne _ _
  other_vote _ _ := rfl
  other_lead term e' he' hne := by
    have hterm : term ≠ ℓ.term node := by
      rintro rfl
      rw [helection] at he'
      exact hne (by rw [← Option.some.inj he', hleader])
    exact append_lead_of_ne hterm entry
  other_election _ _ h _ := h

/-- Entries of `xs`, and `entry` after them. -/
theorem getElem?_append_single_cases {xs : List Entry} {entry found : Entry}
    {k : ℕ} (h : (xs ++ [entry])[k]? = some found) :
    (k < xs.length ∧ xs[k]? = some found) ∨
      (k = xs.length ∧ found = entry) := by
  rcases Nat.lt_trichotomy k xs.length with hlt | heq | hgt
  · rw [List.getElem?_append_left hlt] at h
    exact Or.inl ⟨hlt, h⟩
  · subst heq
    exact Or.inr ⟨rfl, by simpa using h.symm⟩
  · rw [List.getElem?_eq_none (by simp; omega)] at h
    exact absurd h (by simp)

theorem Sound.leadSound_append (hsound : Sound S ℓ) {entry : Entry}
    {e : Election} (helection : ℓ.election (ℓ.term node) = some e)
    (hleader : e.leader = node)
    (hlog : ℓ.lead (ℓ.term node) = ℓ.log node)
    (hterm : entry.term = ℓ.term node)
    (hindex : entry.index = (ℓ.log node).length + 1)
    (hconfig : ∀ members, entry.config? = some members → ¬ S.fixed ∧
      ∃ change, members =
        (membersAfter S.members (ℓ.log node)).withChange change) :
    LeadSound S (ℓ.append node entry) (ℓ.term node) := by
  have hgrows : Grows ℓ (ℓ.append node entry) :=
    (moves_append hsound helection hleader hlog).toGrows
  have hlead := append_lead ℓ node entry
  have hold := hsound.lead (ℓ.term node)
  refine {
    grounded := ?_, numbered := ?_, chained := ?_, term_le := ?_
    fixed := ?_, silent := ?_, start := ?_, own := ?_ }
  · rw [hlead]
    intro k found hk
    rcases getElem?_append_single_cases hk with ⟨hlt, hk⟩ | ⟨rfl, rfl⟩
    · rw [← hlog] at hk hlt ⊢
      rw [List.take_append_of_le_length hlt]
      exact hold.grounded.mono hgrows k found hk
    · rw [hterm, hlead, List.take_of_length_le (by simp)]
  · rw [hlead]
    exact (hlog ▸ hold.numbered).append_single hindex
  · rw [hlead]
    exact (hlog ▸ hold.chained).append_single fun members h =>
      (hconfig members h).2
  · rw [hlead]
    intro found hfound
    rcases List.mem_append.mp hfound with hin | hlast
    · exact hold.term_le found (hlog ▸ hin)
    · rw [List.mem_singleton.mp hlast, hterm]
  · intro hfixed
    have hnone : entry.config?.isSome = false := by
      cases hcase : entry.config? with
      | none => rfl
      | some members => exact absurd hfixed (hconfig members hcase).1
    have hzero := hold.fixed hfixed
    rw [hlog] at hzero
    rw [hlead, changes_append, changes_single, hnone, hzero]
    rfl
  · intro hnone
    have hsame : ℓ.election (ℓ.term node) = none := hnone
    rw [helection] at hsame
    exact absurd hsame (by simp)
  · intro e' he'
    exact (hold.start e' he').trans (hgrows.lead _)
  · intro e' he' k found hk hlen
    rw [hlead] at hk
    rcases getElem?_append_single_cases hk with ⟨-, hk⟩ | ⟨-, rfl⟩
    · exact hold.own e' he' k found (hlog ▸ hk) hlen
    · exact hterm

theorem Sound.nodeSound_append (hsound : Sound S ℓ) {entry : Entry}
    (hmoves : Moves node ℓ (ℓ.append node entry))
    (hlead : LeadSound S (ℓ.append node entry) (ℓ.term node)) :
    NodeSound (ℓ.append node entry) node := by
  have hgrows := hmoves.toGrows
  have hold := hsound.node node
  have hsame : (ℓ.append node entry).log node =
      (ℓ.append node entry).lead (ℓ.term node) := by
    rw [append_log, append_lead]
  refine {
    grounded := ?_, term_le := ?_, held_le := ?_, held_term := ?_, kept := ?_ }
  · rw [hsame]
    exact hlead.grounded
  · rw [hsame]
    exact hlead.term_le
  · intro t
    by_cases ht : t = ℓ.term node
    · subst ht
      rw [append_held, append_lead, List.length_append]
      exact le_rfl
    · rw [append_held_of_ne ht, append_lead_of_ne ht]
      exact hold.held_le t
  · intro t hpos
    by_cases ht : t = ℓ.term node
    · exact ht.le
    · rw [append_held_of_ne ht] at hpos
      exact hold.held_term t hpos
  · intro t n hn
    by_cases ht : t = ℓ.term node
    · subst ht
      rw [hsame]
      exact Or.inl (List.take_prefix _ _)
    · rw [append_held_of_ne ht] at hn
      rw [append_lead_of_ne ht]
      rcases hold.kept t n hn with hin | hover
      · rw [append_log]
        exact Or.inl (hin.trans (List.prefix_append _ _))
      · exact Or.inr (hover.mono hgrows le_rfl)

theorem Sound.append (hsound : Sound S ℓ) {entry : Entry} {e : Election}
    (helection : ℓ.election (ℓ.term node) = some e) (hleader : e.leader = node)
    (hlog : ℓ.lead (ℓ.term node) = ℓ.log node)
    (hterm : entry.term = ℓ.term node)
    (hindex : entry.index = (ℓ.log node).length + 1)
    (hconfig : ∀ members, entry.config? = some members → ¬ S.fixed ∧
      ∃ change, members =
        (membersAfter S.members (ℓ.log node)).withChange change) :
    Sound S (ℓ.append node entry) := by
  have hmoves : Moves node ℓ (ℓ.append node entry) :=
    moves_append hsound helection hleader hlog
  have hgrows := hmoves.toGrows
  have hlead := hsound.leadSound_append helection hleader hlog hterm hindex
    hconfig
  refine {
    lead := fun t => ?_
    node := fun other => ?_
    candidacy := fun other t c hc => (hsound.candidacy other t c hc).mono hgrows
    vote := fun other t c hc =>
      (hsound.vote other t c hc).mono (hsound.node other) hgrows
    election := fun t e he => (hsound.election t e he).mono hsound hgrows }
  · by_cases ht : t = ℓ.term node
    · subst ht
      exact hlead
    · exact (hsound.lead t).mono hgrows (append_lead_of_ne ht entry) rfl
  · by_cases hother : other = node
    · subst hother
      exact hsound.nodeSound_append hmoves hlead
    · exact (hsound.node other).mono hgrows (hmoves.other_log other hother)
        (Function.update_of_ne hother _ _)

/-! ## Taking over entries of a leader -/

/-- A log that takes over what a leader sent, all from the first entry on.  It
stays as it is if it has that already. -/
def joined (log sent : List Entry) : List Entry :=
  if sent <+: log then log else sent

theorem isPrefix_joined (log sent : List Entry) : sent <+: joined log sent := by
  unfold joined
  split
  · assumption
  · exact List.prefix_rfl

/-- What agrees with a leader's log stays where it is. -/
theorem isPrefix_joined_of_isPrefix {log sent xs ys : List Entry}
    (hlog : xs <+: log) (hxs : xs <+: ys) (hsent : sent <+: ys) :
    xs <+: joined log sent := by
  unfold joined
  split
  · exact hlog
  · next hnot =>
    rcases List.prefix_or_prefix_of_prefix hxs hsent with hle | hle
    · exact hle
    · exact absurd (hle.trans hlog) hnot

theorem changes_joined_le {log sent : List Entry} {known sentKnown : ℕ}
    (hlog : changes (log.drop known) ≤ 1)
    (hsent : changes (sent.drop sentKnown) ≤ 1) :
    changes ((joined log sent).drop (max known sentKnown)) ≤ 1 := by
  unfold joined
  split
  · exact (changes_drop_le (le_max_left _ _)).trans hlog
  · exact (changes_drop_le (le_max_right _ _)).trans hsent

/-- The node takes over the first entries of the leader of its term. -/
def adopt (ℓ : Ledger) (node length : ℕ) : Ledger :=
  { ℓ with
    log := Function.update ℓ.log node
      (joined (ℓ.log node) ((ℓ.lead (ℓ.term node)).take length))
    held := Function.update ℓ.held node
      (Function.update (ℓ.held node) (ℓ.term node)
        (max (ℓ.held node (ℓ.term node)) length)) }

theorem adopt_log (ℓ : Ledger) (node length : ℕ) :
    (ℓ.adopt node length).log node =
      joined (ℓ.log node) ((ℓ.lead (ℓ.term node)).take length) := by
  simp [adopt]

theorem adopt_held (ℓ : Ledger) (node length : ℕ) :
    (ℓ.adopt node length).held node (ℓ.term node) =
      max (ℓ.held node (ℓ.term node)) length := by
  simp [adopt]

theorem adopt_held_of_ne {term : ℕ} (h : term ≠ ℓ.term node) (length : ℕ) :
    (ℓ.adopt node length).held node term = ℓ.held node term := by
  simp [adopt, Function.update_of_ne h]

theorem moves_adopt (ℓ : Ledger) (node length : ℕ) :
    Moves node ℓ (ℓ.adopt node length) where
  term_le _ := le_rfl
  vote _ _ _ h := h
  candidacy _ _ _ h := h
  election _ _ h := h
  lead _ := List.prefix_rfl
  held_le other term := by
    by_cases hother : other = node
    · subst hother
      by_cases hterm : term = ℓ.term other
      · subst hterm
        rw [adopt_held]
        exact le_max_left _ _
      · rw [adopt_held_of_ne hterm]
    · simp [adopt, Function.update_of_ne hother]
  closed other term hlt := by
    by_cases hother : other = node
    · subst hother
      exact adopt_held_of_ne hlt.ne length
    · simp [adopt, Function.update_of_ne hother]
  other_term _ _ := rfl
  other_log other hne := Function.update_of_ne hne _ _
  other_vote _ _ := rfl
  other_lead _ _ _ _ := rfl
  other_election _ _ h _ := h

theorem Sound.nodeSound_adopt (hsound : Sound S ℓ) {length : ℕ} {e : Election}
    (helection : ℓ.election (ℓ.term node) = some e)
    (hlength : length ≤ (ℓ.lead (ℓ.term node)).length) :
    NodeSound (ℓ.adopt node length) node := by
  have hold := hsound.node node
  have hgrows := (moves_adopt ℓ node length).toGrows
  have hlead := hsound.lead (ℓ.term node)
  have hsent : (ℓ.lead (ℓ.term node)).take length <+: ℓ.lead (ℓ.term node) :=
    List.take_prefix _ _
  refine {
    grounded := ?_, term_le := ?_, held_le := ?_, held_term := ?_, kept := ?_ }
  · rw [adopt_log, joined]
    split
    · exact hold.grounded.mono hgrows
    · exact (hlead.grounded.of_isPrefix hsent).mono hgrows
  · rw [adopt_log, joined]
    split
    · exact hold.term_le
    · exact fun entry hentry => hlead.term_le entry (hsent.subset hentry)
  · intro t
    by_cases ht : t = ℓ.term node
    · subst ht
      rw [adopt_held]
      exact max_le (hold.held_le _) hlength
    · rw [adopt_held_of_ne ht]
      exact hold.held_le t
  · intro t hpos
    by_cases ht : t = ℓ.term node
    · exact ht.le
    · rw [adopt_held_of_ne ht] at hpos
      exact hold.held_term t hpos
  · intro t n hn
    change (ℓ.lead t).take n <+: (ℓ.adopt node length).log node ∨
      ℓ.Overruled t (ℓ.term node + 1) ((ℓ.lead t).take n)
    rw [adopt_log]
    by_cases hshort : t = ℓ.term node ∧ n ≤ length
    · obtain ⟨rfl, hle⟩ := hshort
      exact Or.inl ((List.take_prefix_take_left hle).trans
        (isPrefix_joined _ _))
    · have hheld : n ≤ ℓ.held node t := by
        by_cases ht : t = ℓ.term node
        · subst ht
          rw [adopt_held] at hn
          have hlt : ¬ n ≤ length := fun h => hshort ⟨rfl, h⟩
          omega
        · rwa [adopt_held_of_ne ht] at hn
      rcases hold.kept t n hheld with hin | hover
      · by_cases hlater : (ℓ.lead t).take n <+: e.start.log
        · exact Or.inl (isPrefix_joined_of_isPrefix hin
            (hlater.trans (hlead.start e helection)) hsent)
        · rcases Nat.lt_trichotomy t (ℓ.term node) with hlt | heq | hgt
          · exact Or.inr ⟨ℓ.term node, e, hlt, Nat.lt_succ_self _, helection,
              hlater⟩
          · subst heq
            exact Or.inl (isPrefix_joined_of_isPrefix hin
              (List.take_prefix _ _) hsent)
          · -- nothing is acknowledged in a term that is not reached
            have hzero : n = 0 := by
              by_contra hne
              have := hold.held_term t (by omega)
              omega
            subst hzero
            exact Or.inl (by simp)
      · exact Or.inr hover

theorem Sound.adopt (hsound : Sound S ℓ) {length : ℕ} {e : Election}
    (helection : ℓ.election (ℓ.term node) = some e)
    (hlength : length ≤ (ℓ.lead (ℓ.term node)).length) :
    Sound S (ℓ.adopt node length) := by
  have hmoves := moves_adopt ℓ node length
  have hgrows := hmoves.toGrows
  refine {
    lead := fun t => (hsound.lead t).mono hgrows rfl rfl
    node := fun other => ?_
    candidacy := fun other t c hc => (hsound.candidacy other t c hc).mono hgrows
    vote := fun other t c hc =>
      (hsound.vote other t c hc).mono (hsound.node other) hgrows
    election := fun t e he => (hsound.election t e he).mono hsound hgrows }
  by_cases hother : other = node
  · subst hother
    exact hsound.nodeSound_adopt helection hlength
  · exact (hsound.node other).mono hgrows (hmoves.other_log other hother)
      (Function.update_of_ne hother _ _)

/-- What is settled stays in the log. -/
theorem Sound.settled_isPrefix_adopt (hsound : Sound S ℓ) {length : ℕ}
    {e : Election} (helection : ℓ.election (ℓ.term node) = some e)
    {entries : List Entry}
    (hsettled : Settled S ℓ (ℓ.term node + 1) entries)
    (hin : entries <+: ℓ.log node) :
    entries <+: (ℓ.adopt node length).log node := by
  rw [adopt_log]
  exact isPrefix_joined_of_isPrefix hin
    (hsound.settled_isPrefix_lead hsettled helection) (List.take_prefix _ _)

end Consensus.Ledger
