import Consensus.Proofs.Ledger.Basic

/-!
# What was chosen is never lost

Every leader starts with everything that was chosen in earlier terms.  The
proof is by induction on the term.  Within one term it follows the chain of
choices: what was chosen before determines the members that made the next
choice, and since the candidate already has the former, its own members differ
from these in at most one server.  So a voter of the candidate took part in the
choice.

Two candidates of one term have adjacent memberships for the same reason, which
leaves at most one of them with a majority.
-/

namespace Consensus.Ledger

variable {S : Scope} {ℓ : Ledger}

/-! ## Grounded entries -/

theorem Grounded.of_isPrefix {xs ys : List Entry} (hys : ℓ.Grounded ys)
    (h : xs <+: ys) : ℓ.Grounded xs := by
  intro k entry hk
  obtain ⟨rest, rfl⟩ := h
  have hlt : k < xs.length := (List.getElem?_eq_some_iff.mp hk).1
  have hground := hys k entry (by rw [List.getElem?_append_left hlt, hk])
  rwa [List.take_append_of_le_length hlt] at hground

theorem grounded_nil : ℓ.Grounded [] := by
  intro k entry hk
  simp at hk

/-- Grounded entries are part of one leader's log. -/
theorem Grounded.isPrefix_lead {entries : List Entry} (h : ℓ.Grounded entries)
    {term : ℕ} (hends : EndsIn term entries) : entries <+: ℓ.lead term := by
  obtain ⟨entry, hlast, rfl⟩ := hends
  have hne : entries ≠ [] := by
    rintro rfl
    simp at hlast
  have hpos : 0 < entries.length := List.length_pos_iff.mpr hne
  rw [List.getLast?_eq_getElem?] at hlast
  have hground := h (entries.length - 1) entry hlast
  rwa [Nat.sub_add_cancel hpos, List.take_length] at hground

theorem Grounded.exists_isPrefix_lead {entries : List Entry}
    (h : ℓ.Grounded entries) : ∃ term, entries <+: ℓ.lead term := by
  by_cases hne : entries = []
  · subst hne
    exact ⟨0, List.nil_prefix⟩
  · exact ⟨lastTerm entries, h.isPrefix_lead (endsIn_lastTerm hne)⟩

theorem Sound.numbered {entries : List Entry} (hsound : Sound S ℓ)
    (h : ℓ.Grounded entries) : Numbered entries := by
  obtain ⟨term, hle⟩ := h.exists_isPrefix_lead
  exact (hsound.lead term).numbered.of_isPrefix hle

theorem Sound.chained {entries : List Entry} (hsound : Sound S ℓ)
    (h : ℓ.Grounded entries) : Chained S.members entries := by
  obtain ⟨term, hle⟩ := h.exists_isPrefix_lead
  exact (hsound.lead term).chained.of_isPrefix hle

theorem Sound.changes_eq_zero {entries : List Entry} (hsound : Sound S ℓ)
    (h : ℓ.Grounded entries) (hfixed : S.fixed) : changes entries = 0 := by
  obtain ⟨term, hle⟩ := h.exists_isPrefix_lead
  have hzero := (hsound.lead term).fixed hfixed
  have hsub := changes_le_of_sublist hle.sublist
  omega

/-- Something in a leader's log means that there was an election. -/
theorem Sound.exists_election (hsound : Sound S ℓ) {term : ℕ}
    (hne : ℓ.lead term ≠ []) : ∃ e, ℓ.election term = some e := by
  cases helection : ℓ.election term with
  | none => exact absurd ((hsound.lead term).silent helection) hne
  | some e => exact ⟨e, rfl⟩

theorem Sound.exists_election_of_chosen (hsound : Sound S ℓ) {term length : ℕ}
    (h : Chosen S ℓ term length) : ∃ e, ℓ.election term = some e := by
  refine hsound.exists_election fun hnil => ?_
  have hends := h.endsIn.ne_nil
  rw [hnil] at hends
  simp at hends

/-! ## A candidate with a majority -/

/-- All leaders before `bound` started with everything that was chosen. -/
def CompleteBefore (S : Scope) (ℓ : Ledger) (bound : ℕ) : Prop :=
  ∀ later e, later < bound → ℓ.election later = some e →
    ∀ term length, term < later → Chosen S ℓ term length →
      (ℓ.lead term).take length <+: e.start.log

theorem CompleteBefore.chosen_isPrefix_lead {bound term later length : ℕ}
    (hcomplete : CompleteBefore S ℓ bound) (hsound : Sound S ℓ)
    (hchosen : Chosen S ℓ term length) (hle : term ≤ later)
    (hlater : later < bound) {e : Election}
    (helection : ℓ.election later = some e) :
    (ℓ.lead term).take length <+: ℓ.lead later := by
  rcases Nat.eq_or_lt_of_le hle with rfl | hlt
  · exact List.take_prefix _ _
  · exact (hcomplete later e hlater helection term length hlt hchosen).trans
      ((hsound.lead later).start e helection)

/-- What was chosen in two terms is in the log of the leader of the later. -/
theorem CompleteBefore.comparable {bound t t' n n' : ℕ}
    (hcomplete : CompleteBefore S ℓ bound) (hsound : Sound S ℓ)
    (h : Chosen S ℓ t n) (h' : Chosen S ℓ t' n') (ht : t < bound)
    (ht' : t' < bound) :
    (ℓ.lead t).take n <+: (ℓ.lead t').take n' ∨
      (ℓ.lead t').take n' <+: (ℓ.lead t).take n := by
  rcases Nat.le_total t t' with hle | hle
  · obtain ⟨e, helection⟩ := hsound.exists_election_of_chosen h'
    exact List.prefix_or_prefix_of_prefix
      (hcomplete.chosen_isPrefix_lead hsound h hle ht' helection)
      (List.take_prefix _ _)
  · obtain ⟨e, helection⟩ := hsound.exists_election_of_chosen h
    exact List.prefix_or_prefix_of_prefix (List.take_prefix _ _)
      (hcomplete.chosen_isPrefix_lead hsound h' hle ht helection)

theorem CompleteBefore.settled_comparable {bound b b' : ℕ} {xs ys : List Entry}
    (hcomplete : CompleteBefore S ℓ bound) (hsound : Sound S ℓ)
    (hxs : Settled S ℓ b xs) (hys : Settled S ℓ b' ys) (hb : b ≤ bound)
    (hb' : b' ≤ bound) : xs <+: ys ∨ ys <+: xs := by
  rcases hxs with rfl | ⟨t, n, ht, hchosen, hx⟩
  · exact Or.inl List.nil_prefix
  rcases hys with rfl | ⟨t', n', ht', hchosen', hy⟩
  · exact Or.inr List.nil_prefix
  rcases hcomplete.comparable hsound hchosen hchosen' (ht.trans_le hb)
      (ht'.trans_le hb') with hle | hle
  · exact List.prefix_or_prefix_of_prefix (hx.trans hle) hy
  · exact List.prefix_or_prefix_of_prefix hx (hy.trans hle)

/-- A candidate, the members it counts, and voters that carry what they
acknowledged. -/
structure Campaign (S : Scope) (ℓ : Ledger) (node term bound : ℕ)
    (c : Candidacy) (voters : NodeSet) : Prop where
  sound : CandidacySound S ℓ node term c
  quorum : (membersAfter S.members (c.log.take c.known)).hasQuorum voters = true
  carried : ∀ id ∈ voters, ℓ.Carries id term bound c.log

/-- The members that supported a choice are next to those that the candidate
counts, once the candidate has all that this choice built on. -/
theorem Campaign.adjacent {node term bound t n known : ℕ} {c : Candidacy}
    {voters : NodeSet} (h : Campaign S ℓ node term bound c voters)
    (hsound : Sound S ℓ) (hsupported : Supported S ℓ known t n)
    (hknown : (ℓ.lead t).take known <+: c.log)
    (hle : c.log.take c.known <+: (ℓ.lead t).take n) :
    NodeSet.Adjacent (membersAfter S.members ((ℓ.lead t).take known))
      (membersAfter S.members (c.log.take c.known)) := by
  have hlt := hsupported.known_lt
  have hlength := hsupported.length_le
  have hcknown := h.sound.known_le
  have htake : (ℓ.lead t).take known <+: (ℓ.lead t).take n :=
    List.take_prefix_take_left hlt.le
  have hlen : ((ℓ.lead t).take known).length = known := by
    rw [List.length_take]
    omega
  have hclen : (c.log.take c.known).length = c.known := by
    rw [List.length_take]
    omega
  have hchained : Chained S.members ((ℓ.lead t).take n) :=
    (hsound.lead t).chained.of_isPrefix (List.take_prefix _ _)
  rcases Nat.le_total known c.known with hcase | hcase
  · have hpre := isPrefix_of_length_le htake hle (by omega)
    refine (hchained.of_isPrefix hle).adjacent hpre ?_
    rw [hlen]
    exact (changes_drop_le_of_isPrefix hle).trans hsupported.pending
  · have hpre := isPrefix_of_length_le hle htake (by omega)
    refine ((hchained.of_isPrefix htake).adjacent hpre ?_).symm
    rw [hclen]
    exact (changes_drop_le_of_isPrefix hknown).trans h.sound.pending

theorem Campaign.isPrefix_of_supported {node term bound t n known : ℕ}
    {c : Candidacy} {voters : NodeSet}
    (h : Campaign S ℓ node term bound c voters) (hsound : Sound S ℓ)
    (hcomplete : CompleteBefore S ℓ bound) (hbound : term ≤ bound)
    (ht : t < term) (hchosen : Chosen S ℓ t n)
    (hsupported : Supported S ℓ known t n)
    (hknown : (ℓ.lead t).take known <+: c.log) :
    (ℓ.lead t).take n <+: c.log := by
  have hsettled : Settled S ℓ (t + 1) ((ℓ.lead t).take n) :=
    Or.inr ⟨t, n, Nat.lt_succ_self t, hchosen, List.prefix_rfl⟩
  rcases hcomplete.settled_comparable hsound hsettled h.sound.settled
      (Nat.succ_le_of_lt (ht.trans_le hbound)) hbound with hle | hle
  · exact hle.trans (List.take_prefix _ _)
  · have hadjacent := h.adjacent hsound hsupported hknown hle
    obtain ⟨id, hheld, hvoter⟩ := hsupported.majority.overlap hadjacent
      (NodeSet.majority_of_hasQuorum h.quorum)
    rcases h.carried id hvoter t n ht hheld hsupported.endsIn with hin | hover
    · exact hin
    · obtain ⟨later, e, hlt, hlater, helection, hnot⟩ := hover
      exact absurd (hcomplete later e hlater helection t n hlt hchosen) hnot

/-- A candidate with a majority has everything that was chosen before. -/
theorem Campaign.complete {node term bound t n : ℕ} {c : Candidacy}
    {voters : NodeSet} (h : Campaign S ℓ node term bound c voters)
    (hsound : Sound S ℓ) (hcomplete : CompleteBefore S ℓ bound)
    (hbound : term ≤ bound) (ht : t < term) (hchosen : Chosen S ℓ t n) :
    (ℓ.lead t).take n <+: c.log := by
  -- along the chain of choices: what a choice built on is in the log already
  induction hchosen with
  | first hsupported =>
      exact h.isPrefix_of_supported hsound hcomplete hbound ht
        (.first hsupported) hsupported (by simp)
  | next hprior hterm hknown hsupported ih =>
      exact h.isPrefix_of_supported hsound hcomplete hbound ht
        (.next hprior hterm hknown hsupported) hsupported
        (hknown.trans (ih (hterm.trans_lt ht)))

/-! ## Completeness -/

theorem Sound.campaign_of_election (hsound : Sound S ℓ) {term : ℕ}
    {e : Election} (helection : ℓ.election term = some e) :
    Campaign S ℓ e.leader term term e.start e.voters where
  sound := hsound.candidacy e.leader term e.start
    (hsound.election term e helection).stood
  quorum := (hsound.election term e helection).quorum
  carried := (hsound.election term e helection).carried

theorem Sound.completeBefore (hsound : Sound S ℓ) (bound : ℕ) :
    CompleteBefore S ℓ bound := by
  induction bound with
  | zero =>
      intro later e hlater
      omega
  | succ bound ih =>
      intro later e hlater helection term length hlt hchosen
      refine (hsound.campaign_of_election helection).complete hsound ?_ le_rfl
        hlt hchosen
      intro later' e' hlater'
      exact ih later' e' (by omega)

/-- Every leader starts with everything chosen in earlier terms. -/
theorem Sound.chosen_isPrefix_start (hsound : Sound S ℓ) {term length later : ℕ}
    {e : Election} (hchosen : Chosen S ℓ term length) (hlt : term < later)
    (helection : ℓ.election later = some e) :
    (ℓ.lead term).take length <+: e.start.log :=
  hsound.completeBefore (later + 1) later e (Nat.lt_succ_self later) helection
    term length hlt hchosen

/-- What is settled is in the log of every leader from then on. -/
theorem Sound.settled_isPrefix_lead (hsound : Sound S ℓ) {term : ℕ}
    {entries : List Entry} {e : Election}
    (hsettled : Settled S ℓ (term + 1) entries)
    (helection : ℓ.election term = some e) : entries <+: ℓ.lead term := by
  rcases hsettled with rfl | ⟨t, n, ht, hchosen, hle⟩
  · exact List.nil_prefix
  · exact hle.trans ((hsound.completeBefore (term + 1)).chosen_isPrefix_lead
      hsound hchosen (Nat.le_of_lt_succ ht) (Nat.lt_succ_self term) helection)

/-- Any two settled lists continue each other. -/
theorem Sound.settled_comparable (hsound : Sound S ℓ) {b b' : ℕ}
    {xs ys : List Entry} (hxs : Settled S ℓ b xs) (hys : Settled S ℓ b' ys) :
    xs <+: ys ∨ ys <+: xs :=
  (hsound.completeBefore (max b b')).settled_comparable hsound hxs hys
    (le_max_left b b') (le_max_right b b')

/-- A choice that builds on settled entries. -/
theorem Chosen.of_settled {known term length : ℕ}
    (hsettled : Settled S ℓ (term + 1) ((ℓ.lead term).take known))
    (hsupported : Supported S ℓ known term length) : Chosen S ℓ term length := by
  rcases hsettled with hnil | ⟨earlier, prior, hlt, hchosen, hle⟩
  · have hlength := hsupported.length_le
    have hlt := hsupported.known_lt
    have hzero : known = 0 := by
      rcases List.take_eq_nil_iff.mp hnil with hzero | hlead
      · exact hzero
      · rw [hlead, List.length_nil] at hlength
        omega
    subst hzero
    exact .first hsupported
  · exact .next hchosen (Nat.le_of_lt_succ hlt) hle hsupported

/-! ## One election a term -/

/-- A candidate all of whose voters voted for it. -/
theorem Sound.campaign_of_votes (hsound : Sound S ℓ) {node term : ℕ}
    {c : Candidacy} {voters : NodeSet}
    (hstood : ℓ.candidacy node term = some c)
    (hquorum : (membersAfter S.members
      (c.log.take c.known)).hasQuorum voters = true)
    (hvotes : ∀ id ∈ voters, ℓ.vote id term = some node) :
    Campaign S ℓ node term (term + 1) c voters where
  sound := hsound.candidacy node term c hstood
  quorum := hquorum
  carried id hid := by
    obtain ⟨c', hstood', hcarries⟩ :=
      (hsound.vote id term node (hvotes id hid)).carried
    have hsame : c = c' := Option.some.inj (hstood.symm.trans hstood')
    exact hsame ▸ hcarries

/-- The members counted by two candidates are adjacent, if the one that knows
less has all that the other knows. -/
theorem CandidacySound.adjacent {node term : ℕ} {c c' : Candidacy}
    (hc : CandidacySound S ℓ node term c) (hsound : Sound S ℓ)
    (hle : c.log.take c.known <+: c'.log.take c'.known)
    (hcomplete : c'.log.take c'.known <+: c.log) :
    NodeSet.Adjacent (membersAfter S.members (c.log.take c.known))
      (membersAfter S.members (c'.log.take c'.known)) := by
  refine ((hsound.chained hc.grounded).of_isPrefix hcomplete).adjacent hle ?_
  have hknown := hc.known_le
  rw [List.length_take, Nat.min_eq_left hknown]
  exact (changes_drop_le_of_isPrefix hcomplete).trans hc.pending

theorem Campaign.known_isPrefix {node term bound : ℕ} {c : Candidacy}
    {voters : NodeSet} (h : Campaign S ℓ node term bound c voters)
    (hsound : Sound S ℓ) (hbound : term ≤ bound) {entries : List Entry}
    (hsettled : Settled S ℓ term entries) : entries <+: c.log := by
  rcases hsettled with rfl | ⟨t, n, ht, hchosen, hle⟩
  · exact List.nil_prefix
  · exact hle.trans
      (h.complete hsound (hsound.completeBefore bound) hbound ht hchosen)

/-- A candidate with a majority of votes is the one that its term elected, if
it elected any. -/
theorem Sound.leader_unique (hsound : Sound S ℓ) {node term : ℕ}
    {c : Candidacy} {voters : NodeSet} {e : Election}
    (hstood : ℓ.candidacy node term = some c)
    (hquorum : (membersAfter S.members
      (c.log.take c.known)).hasQuorum voters = true)
    (hvotes : ∀ id ∈ voters, ℓ.vote id term = some node)
    (helection : ℓ.election term = some e) : e.leader = node := by
  have hwon := hsound.campaign_of_election helection
  have hnew := hsound.campaign_of_votes hstood hquorum hvotes
  have hadjacent : NodeSet.Adjacent
      (membersAfter S.members (e.start.log.take e.start.known))
      (membersAfter S.members (c.log.take c.known)) := by
    rcases hsound.settled_comparable hwon.sound.settled hnew.sound.settled
      with hle | hle
    · exact hwon.sound.adjacent hsound hle
        (hwon.known_isPrefix hsound le_rfl hnew.sound.settled)
    · exact (hnew.sound.adjacent hsound hle
        (hnew.known_isPrefix hsound (Nat.le_succ term)
          hwon.sound.settled)).symm
  obtain ⟨id, hid, hid'⟩ :=
    (NodeSet.majority_of_hasQuorum hwon.quorum).overlap hadjacent
      (NodeSet.majority_of_hasQuorum hquorum)
  have hvote := (hsound.election term e helection).votes id hid
  exact Option.some.inj (hvote.symm.trans (hvotes id hid'))

end Consensus.Ledger
