import Consensus.Proofs.Entries

/-!
# The ledger of a cluster

No node knows what the others hold, what they voted in earlier terms, or what
they have dropped from their logs.  The ledger keeps all of it: for every node
its term, its whole log and its votes, and for every term its election and the
log of its leader.  Nothing here runs.  The ledger only grows, and the
properties collected in `Ledger.Sound` are what every handler keeps.

The memberships in use may change from one entry to the next.  A cluster whose
members stay is the case where no entry carries a membership.
-/

namespace Consensus

/-- The membership that a cluster starts with, and whether it stays. -/
structure Scope where
  members : NodeSet
  fixed : Prop

/-- What a node stands for election with: its whole log, and how many entries
of it are known to be committed. -/
structure Candidacy where
  log : List Entry
  known : ℕ

/-- How the election of a term ended. -/
structure Election where
  leader : ℕ
  voters : NodeSet
  start : Candidacy

/-- All that ever mattered in a cluster. -/
structure Ledger where
  /-- The current term of each node. -/
  term : ℕ → ℕ
  /-- The log of each node, compacted entries included. -/
  log : ℕ → List Entry
  /-- The vote of a node in a term. -/
  vote : ℕ → ℕ → Option ℕ
  /-- The candidacy of a node in a term. -/
  candidacy : ℕ → ℕ → Option Candidacy
  /-- The election of a term. -/
  election : ℕ → Option Election
  /-- The log of the leader of a term as far as it came. -/
  lead : ℕ → List Entry
  /-- How much of the leader's log of a term a node has acknowledged. -/
  held : ℕ → ℕ → ℕ

namespace Ledger

variable {S : Scope} {ℓ ℓ' ℓ'' : Ledger}

/-- Every entry was appended by the leader of its term, after the entries that
stand before it. -/
def Grounded (ℓ : Ledger) (entries : List Entry) : Prop :=
  ∀ k entry, entries[k]? = some entry →
    entries.take (k + 1) <+: ℓ.lead entry.term

/-- A leader between the two terms started without the entries. -/
def Overruled (ℓ : Ledger) (term bound : ℕ) (entries : List Entry) : Prop :=
  ∃ later election, term < later ∧ later < bound ∧
    ℓ.election later = some election ∧ ¬ entries <+: election.start.log

/-- Whatever a node acknowledged in terms before `term` is in the log of the
candidate that it votes for, except where it was overruled. -/
def Carries (ℓ : Ledger) (node term bound : ℕ) (log : List Entry) : Prop :=
  ∀ t n, t < term → n ≤ ℓ.held node t → EndsIn t ((ℓ.lead t).take n) →
    (ℓ.lead t).take n <+: log ∨ ℓ.Overruled t bound ((ℓ.lead t).take n)

/-! ## What is chosen -/

/-- A majority of the members in force after `known` entries holds `length`
entries of the leader of `term`, the last of which is its own. -/
structure Supported (S : Scope) (ℓ : Ledger) (known term length : ℕ) : Prop where
  known_lt : known < length
  length_le : length ≤ (ℓ.lead term).length
  endsIn : EndsIn term ((ℓ.lead term).take length)
  majority : (membersAfter S.members ((ℓ.lead term).take known)).Majority
    fun id => length ≤ ℓ.held id term
  pending : changes (((ℓ.lead term).take length).drop known) ≤ 1

/-- The first `length` entries of the leader of `term` are chosen for good.
The membership that chose them was itself fixed by what was chosen before. -/
inductive Chosen (S : Scope) (ℓ : Ledger) : ℕ → ℕ → Prop
  | first {term length : ℕ} (hsupported : Supported S ℓ 0 term length) :
      Chosen S ℓ term length
  | next {earlier known term prior length : ℕ}
      (hprior : Chosen S ℓ earlier prior) (hterm : earlier ≤ term)
      (hknown : (ℓ.lead term).take known <+: (ℓ.lead earlier).take prior)
      (hsupported : Supported S ℓ known term length) :
      Chosen S ℓ term length

/-- The entries were chosen in a term before `bound`. -/
def Settled (S : Scope) (ℓ : Ledger) (bound : ℕ) (entries : List Entry) : Prop :=
  entries = [] ∨ ∃ term length, term < bound ∧ Chosen S ℓ term length ∧
    entries <+: (ℓ.lead term).take length

/-! ## Soundness -/

/-- What holds of the log of the leader of a term. -/
structure LeadSound (S : Scope) (ℓ : Ledger) (term : ℕ) : Prop where
  grounded : ℓ.Grounded (ℓ.lead term)
  numbered : Numbered (ℓ.lead term)
  chained : Chained S.members (ℓ.lead term)
  term_le : ∀ entry ∈ ℓ.lead term, entry.term ≤ term
  fixed : S.fixed → changes (ℓ.lead term) = 0
  silent : ℓ.election term = none → ℓ.lead term = []
  start : ∀ election, ℓ.election term = some election →
    election.start.log <+: ℓ.lead term
  own : ∀ election, ℓ.election term = some election → ∀ k entry,
    (ℓ.lead term)[k]? = some entry → election.start.log.length ≤ k →
      entry.term = term

/-- What holds of a node. -/
structure NodeSound (ℓ : Ledger) (node : ℕ) : Prop where
  grounded : ℓ.Grounded (ℓ.log node)
  term_le : ∀ entry ∈ ℓ.log node, entry.term ≤ ℓ.term node
  held_le : ∀ t, ℓ.held node t ≤ (ℓ.lead t).length
  held_term : ∀ t, 0 < ℓ.held node t → t ≤ ℓ.term node
  kept : ∀ t n, n ≤ ℓ.held node t → (ℓ.lead t).take n <+: ℓ.log node ∨
    ℓ.Overruled t (ℓ.term node + 1) ((ℓ.lead t).take n)

/-- What holds of a candidacy. -/
structure CandidacySound (S : Scope) (ℓ : Ledger) (node term : ℕ)
    (c : Candidacy) : Prop where
  grounded : ℓ.Grounded c.log
  term_lt : ∀ entry ∈ c.log, entry.term < term
  term_le : term ≤ ℓ.term node
  known_le : c.known ≤ c.log.length
  settled : Settled S ℓ term (c.log.take c.known)
  pending : changes (c.log.drop c.known) ≤ 1

/-- What holds of a vote. -/
structure VoteSound (ℓ : Ledger) (node term candidate : ℕ) : Prop where
  term_le : term ≤ ℓ.term node
  carried : ∃ c, ℓ.candidacy candidate term = some c ∧
    ℓ.Carries node term (term + 1) c.log

/-- What holds of an election. -/
structure ElectionSound (S : Scope) (ℓ : Ledger) (term : ℕ)
    (e : Election) : Prop where
  stood : ℓ.candidacy e.leader term = some e.start
  quorum : (membersAfter S.members
    (e.start.log.take e.start.known)).hasQuorum e.voters = true
  votes : ∀ id ∈ e.voters, ℓ.vote id term = some e.leader
  carried : ∀ id ∈ e.voters, ℓ.Carries id term term e.start.log

/-- What every reachable ledger satisfies. -/
structure Sound (S : Scope) (ℓ : Ledger) : Prop where
  lead : ∀ term, LeadSound S ℓ term
  node : ∀ node, NodeSound ℓ node
  candidacy : ∀ node term c, ℓ.candidacy node term = some c →
    CandidacySound S ℓ node term c
  vote : ∀ node term candidate, ℓ.vote node term = some candidate →
    VoteSound ℓ node term candidate
  election : ∀ term e, ℓ.election term = some e → ElectionSound S ℓ term e

/-! ## Growth -/

/-- What is in the ledger stays, and a node acknowledges nothing more in a term
that it has left. -/
structure Grows (ℓ ℓ' : Ledger) : Prop where
  term_le : ∀ node, ℓ.term node ≤ ℓ'.term node
  vote : ∀ node term candidate,
    ℓ.vote node term = some candidate → ℓ'.vote node term = some candidate
  candidacy : ∀ node term c,
    ℓ.candidacy node term = some c → ℓ'.candidacy node term = some c
  election : ∀ term e, ℓ.election term = some e → ℓ'.election term = some e
  lead : ∀ term, ℓ.lead term <+: ℓ'.lead term
  held_le : ∀ node term, ℓ.held node term ≤ ℓ'.held node term
  closed : ∀ node term, term < ℓ.term node →
    ℓ'.held node term = ℓ.held node term

theorem Grows.refl (ℓ : Ledger) : Grows ℓ ℓ where
  term_le _ := le_rfl
  vote _ _ _ h := h
  candidacy _ _ _ h := h
  election _ _ h := h
  lead _ := List.prefix_rfl
  held_le _ _ := le_rfl
  closed _ _ _ := rfl

theorem Grows.trans (h : Grows ℓ ℓ') (h' : Grows ℓ' ℓ'') : Grows ℓ ℓ'' where
  term_le node := (h.term_le node).trans (h'.term_le node)
  vote node term candidate hvote :=
    h'.vote node term candidate (h.vote node term candidate hvote)
  candidacy node term c hc := h'.candidacy node term c (h.candidacy node term c hc)
  election term e he := h'.election term e (h.election term e he)
  lead term := (h.lead term).trans (h'.lead term)
  held_le node term := (h.held_le node term).trans (h'.held_le node term)
  closed node term hlt := by
    rw [h'.closed node term (hlt.trans_le (h.term_le node)),
      h.closed node term hlt]

/-- What a leader's log held stays where it was. -/
theorem Grows.take_lead (h : Grows ℓ ℓ') {term n : ℕ}
    (hn : n ≤ (ℓ.lead term).length) :
    (ℓ'.lead term).take n = (ℓ.lead term).take n :=
  take_eq_of_isPrefix (h.lead term) hn

theorem Grounded.mono {entries : List Entry} (h : ℓ.Grounded entries)
    (hgrows : Grows ℓ ℓ') : ℓ'.Grounded entries := by
  intro k entry hk
  exact (h k entry hk).trans (hgrows.lead entry.term)

theorem Overruled.mono {term bound bound' : ℕ} {entries : List Entry}
    (h : ℓ.Overruled term bound entries) (hgrows : Grows ℓ ℓ')
    (hbound : bound ≤ bound') : ℓ'.Overruled term bound' entries := by
  obtain ⟨later, election, hlt, hlater, helection, hnot⟩ := h
  exact ⟨later, election, hlt, hlater.trans_le hbound,
    hgrows.election later election helection, hnot⟩

theorem Carries.mono {node term bound : ℕ} {log : List Entry}
    (h : ℓ.Carries node term bound log) (hnode : NodeSound ℓ node)
    (hterm : term ≤ ℓ.term node) (hgrows : Grows ℓ ℓ') :
    ℓ'.Carries node term bound log := by
  intro t n ht hn hends
  rw [hgrows.closed node t (ht.trans_le hterm)] at hn
  have htake : (ℓ'.lead t).take n = (ℓ.lead t).take n :=
    hgrows.take_lead (hn.trans (hnode.held_le t))
  rw [htake] at hends ⊢
  exact (h t n ht hn hends).imp_right fun hover => hover.mono hgrows le_rfl

theorem Supported.mono {known term length : ℕ}
    (h : Supported S ℓ known term length) (hgrows : Grows ℓ ℓ') :
    Supported S ℓ' known term length where
  known_lt := h.known_lt
  length_le := h.length_le.trans (hgrows.lead term).length_le
  endsIn := by
    rw [hgrows.take_lead h.length_le]
    exact h.endsIn
  majority := by
    rw [hgrows.take_lead (h.known_lt.le.trans h.length_le)]
    exact h.majority.mono fun id hid => hid.trans (hgrows.held_le id term)
  pending := by
    rw [hgrows.take_lead h.length_le]
    exact h.pending

theorem Chosen.supported {term length : ℕ} (h : Chosen S ℓ term length) :
    ∃ known, Supported S ℓ known term length := by
  cases h with
  | first hsupported => exact ⟨0, hsupported⟩
  | next _ _ _ hsupported => exact ⟨_, hsupported⟩

theorem Chosen.length_le {term length : ℕ} (h : Chosen S ℓ term length) :
    length ≤ (ℓ.lead term).length := by
  obtain ⟨known, hsupported⟩ := h.supported
  exact hsupported.length_le

theorem Chosen.endsIn {term length : ℕ} (h : Chosen S ℓ term length) :
    EndsIn term ((ℓ.lead term).take length) := by
  obtain ⟨known, hsupported⟩ := h.supported
  exact hsupported.endsIn

theorem Chosen.mono {term length : ℕ} (h : Chosen S ℓ term length)
    (hgrows : Grows ℓ ℓ') : Chosen S ℓ' term length := by
  induction h with
  | first hsupported => exact .first (hsupported.mono hgrows)
  | next hprior hterm hknown hsupported ih =>
      refine .next ih hterm ?_ (hsupported.mono hgrows)
      rw [hgrows.take_lead (hsupported.known_lt.le.trans hsupported.length_le),
        hgrows.take_lead hprior.length_le]
      exact hknown

theorem Settled.mono {bound bound' : ℕ} {entries : List Entry}
    (h : Settled S ℓ bound entries) (hgrows : Grows ℓ ℓ')
    (hbound : bound ≤ bound') : Settled S ℓ' bound' entries := by
  refine h.imp_right ?_
  rintro ⟨term, length, hlt, hchosen, hle⟩
  refine ⟨term, length, hlt.trans_le hbound, hchosen.mono hgrows, ?_⟩
  rw [hgrows.take_lead hchosen.length_le]
  exact hle

theorem Settled.of_isPrefix {bound : ℕ} {xs ys : List Entry}
    (h : Settled S ℓ bound ys) (hle : xs <+: ys) : Settled S ℓ bound xs := by
  rcases h with rfl | ⟨term, length, hlt, hchosen, hys⟩
  · exact Or.inl (List.prefix_nil.mp hle)
  · exact Or.inr ⟨term, length, hlt, hchosen, hle.trans hys⟩

/-- A leader's log that did not change stays sound. -/
theorem LeadSound.mono {term : ℕ} (h : LeadSound S ℓ term)
    (hgrows : Grows ℓ ℓ') (hlead : ℓ'.lead term = ℓ.lead term)
    (helection : ℓ'.election term = ℓ.election term) : LeadSound S ℓ' term where
  grounded := by
    rw [hlead]
    exact h.grounded.mono hgrows
  numbered := hlead ▸ h.numbered
  chained := hlead ▸ h.chained
  term_le := hlead ▸ h.term_le
  fixed := hlead ▸ h.fixed
  silent := by
    rw [hlead, helection]
    exact h.silent
  start := by
    rw [hlead, helection]
    exact h.start
  own := by
    rw [hlead, helection]
    exact h.own

/-- A node whose log and acknowledgements did not change stays sound, in a
later term too. -/
theorem NodeSound.mono {node : ℕ} (h : NodeSound ℓ node) (hgrows : Grows ℓ ℓ')
    (hlog : ℓ'.log node = ℓ.log node) (hheld : ℓ'.held node = ℓ.held node) :
    NodeSound ℓ' node where
  grounded := by
    rw [hlog]
    exact h.grounded.mono hgrows
  term_le := by
    rw [hlog]
    exact fun entry hentry =>
      (h.term_le entry hentry).trans (hgrows.term_le node)
  held_le t := by
    rw [hheld]
    exact (h.held_le t).trans (hgrows.lead t).length_le
  held_term t := by
    rw [hheld]
    exact fun hpos => (h.held_term t hpos).trans (hgrows.term_le node)
  kept t n := by
    intro hn
    rw [hheld] at hn
    rw [hlog, hgrows.take_lead (hn.trans (h.held_le t))]
    exact (h.kept t n hn).imp_right fun hover =>
      hover.mono hgrows (Nat.succ_le_succ (hgrows.term_le node))

theorem CandidacySound.mono {node term : ℕ} {c : Candidacy}
    (h : CandidacySound S ℓ node term c) (hgrows : Grows ℓ ℓ') :
    CandidacySound S ℓ' node term c where
  grounded := h.grounded.mono hgrows
  term_lt := h.term_lt
  term_le := h.term_le.trans (hgrows.term_le node)
  known_le := h.known_le
  settled := h.settled.mono hgrows le_rfl
  pending := h.pending

theorem VoteSound.mono {node term candidate : ℕ}
    (h : VoteSound ℓ node term candidate) (hnode : NodeSound ℓ node)
    (hgrows : Grows ℓ ℓ') : VoteSound ℓ' node term candidate where
  term_le := h.term_le.trans (hgrows.term_le node)
  carried := by
    obtain ⟨c, hstood, hcarries⟩ := h.carried
    exact ⟨c, hgrows.candidacy candidate term c hstood,
      hcarries.mono hnode h.term_le hgrows⟩

theorem ElectionSound.mono {term : ℕ} {e : Election}
    (h : ElectionSound S ℓ term e) (hsound : Sound S ℓ) (hgrows : Grows ℓ ℓ') :
    ElectionSound S ℓ' term e where
  stood := hgrows.candidacy e.leader term e.start h.stood
  quorum := h.quorum
  votes id hid := hgrows.vote id term e.leader (h.votes id hid)
  carried id hid :=
    (h.carried id hid).mono (hsound.node id)
      (hsound.vote id term e.leader (h.votes id hid)).term_le hgrows

end Ledger

end Consensus
