import Consensus.Proofs.Node.Answering

/-!
# Replication converges

A leader and a follower exchange requests and answers, none of which is lost.
Whatever the follower has beyond what is committed, and wherever the leader begins,
the follower has all of the leader's log after a number of rounds that is bounded by
the length of that log and by where the leader begins.

A round that is refused takes the leader a step back, and one that is not takes the
follower further.  So what shrinks in every round is what is left to send, together
with what the leader may yet have to go back.
-/

namespace Consensus

/-- What a computation gives if it does not fail. -/
def success? {ε σ α : Type} (act : EStateM ε σ α) (s : σ) : Option (α × σ) :=
  match act s with
  | .ok a s' => some (a, s')
  | .error _ _ => none

theorem Ensures.exists_success? {ε σ α : Type} {act : EStateM ε σ α} {s : σ}
    {Q : α → σ → Prop} (h : Ensures act s Q fun _ => False) :
    ∃ a s', success? act s = some (a, s') ∧ Q a s' := by
  unfold Ensures at h
  unfold success?
  cases hrun : act s with
  | ok a s' =>
      rw [hrun] at h
      exact ⟨a, s', rfl, h⟩
  | error e s' =>
      rw [hrun] at h
      exact h.elim

/-! ## Progress -/

namespace Progress

variable {p : Progress} {last index : ℕ}

/-- Nothing is under way, and what is sent next comes after what the peer is known
to hold, and follows the last index at most. -/
structure Between (p : Progress) (last : ℕ) : Prop where
  idle : p.inFlight = false
  ahead : p.matchIndex < p.nextIndex
  next_le : p.nextIndex ≤ last + 1

/-- What the peer is not known to hold, and how far the leader may have to go back
from where it sends next. -/
def remaining (p : Progress) (last : ℕ) : ℕ :=
  (last - p.matchIndex) + (p.nextIndex - (p.matchIndex + 1))

theorem between_start (hpos : 0 < index) (hle : index ≤ last + 1) :
    (start index).Between last :=
  ⟨rfl, hpos, hle⟩

theorem remaining_start (next last : ℕ) :
    (start next).remaining last = last + (next - 1) := rfl

theorem Between.eq_of_remaining (h : p.Between last)
    (hnone : p.remaining last = 0) : p = ⟨last + 1, last, false⟩ := by
  obtain ⟨hidle, hahead, hnext⟩ := h
  obtain ⟨nextIndex, matchIndex, inFlight⟩ := p
  unfold remaining at hnone
  dsimp only at *
  obtain rfl : nextIndex = last + 1 := by omega
  obtain rfl : matchIndex = last := by omega
  rw [hidle]

/-- A success as far as the peer was sent to. -/
theorem Between.recordSuccess (h : p.Between last) (hle : index ≤ last)
    (hnext : p.nextIndex ≤ index + 1)
    (hfurther : p.matchIndex < index ∨ index = last) :
    (p.recordSuccess index).Between last ∧
      (p.recordSuccess index).remaining last ≤ p.remaining last - 1 := by
  obtain ⟨hidle, hahead, hbound⟩ := h
  simp only [remaining, Progress.recordSuccess, Counting.plus_eq]
  refine ⟨⟨hidle, ?_, ?_⟩, ?_⟩
  · dsimp only
    omega
  · dsimp only
    omega
  · omega

/-- A refusal takes the leader back, whatever hint it comes with. -/
theorem Between.recordMismatch (h : p.Between last)
    (hrefused : p.matchIndex < p.nextIndex - 1) (hint : ℕ) :
    (p.recordMismatch hint).Between last ∧
      (p.recordMismatch hint).remaining last ≤ p.remaining last - 1 := by
  obtain ⟨hidle, hahead, hbound⟩ := h
  simp only [remaining, Progress.recordMismatch, Counting.plus_eq]
  refine ⟨⟨hidle, ?_, ?_⟩, ?_⟩
  · dsimp only
    omega
  · dsimp only
    omega
  · omega

/-- The progress after the answer to a request. -/
def answered (p : Progress) (request : AppendRequest) (reply : AppendReply) :
    Progress :=
  if reply.success then
    p.recordSuccess (request.prevIndex + request.entries.length)
  else p.recordMismatch reply.matchIndex

theorem matchIndex_answered (p : Progress) (request : AppendRequest)
    (reply : AppendReply) :
    (p.answered request reply).matchIndex =
      Node.toldBy request reply p.matchIndex := by
  unfold answered Node.toldBy
  split
  · rfl
  · rfl

/-- The entries after those before the next one, as many as fit. -/
theorem Between.answered (h : p.Between last) {request : AppendRequest}
    {reply : AppendReply} {batch : ℕ} (hbatch : 0 < batch)
    (hprev : request.prevIndex = p.nextIndex - 1)
    (hlength : request.entries.length = min batch (last - request.prevIndex))
    (hrefused : reply.success = false → p.matchIndex < request.prevIndex) :
    (p.answered request reply).Between last ∧
      (p.answered request reply).remaining last ≤ p.remaining last - 1 := by
  have hahead := h.ahead
  have hnext := h.next_le
  unfold Progress.answered
  cases hsuccess : reply.success with
  | true =>
      rw [if_pos rfl]
      apply h.recordSuccess
      · omega
      · omega
      · omega
  | false =>
      rw [if_neg Bool.false_ne_true]
      have hback := hrefused hsuccess
      exact h.recordMismatch (hprev ▸ hback) reply.matchIndex

end Progress

namespace Node

variable {σ τ : Type} [Storage σ] [Storage τ]

/-! ## Rounds -/

/-- The request that a leader has for a peer, and what it keeps of it. -/
def sends? (peer : ℕ) (l : Node σ) : Option ((Request × Batch) × Node σ) :=
  match success? (replicateTo peer) { l with effects := [] } with
  | some ((), l) =>
    match l.effects with
    | [.dispatch _ request batch] => some ((request, batch), l)
    | _ => none
  | none => none

/-- The answer of a follower to the request of a leader. -/
def answers? : Request → Node τ → Option (Response × Node τ)
  | .appendEntries request, f =>
    (success? (handleAppendRequest request) f).map (Prod.map .appendEntries id)
  | .installSnapshot request, f =>
    (success? (handleInstallRequest request) f).map
      (Prod.map .installSnapshot id)
  | _, _ => none

/-- The leader with nothing under way to the peer, of which it has learned
something. -/
def learned (l : Node σ) (peer : ℕ) (change : Progress → Progress) : Node σ :=
  (l.recordReply peer fun p => { p with inFlight := false }).recordReply peer
    change

/-- What a leader learns of a peer from an answer, if it counts. -/
def learns? (peer : ℕ) (batch : Batch) (response : Response) (l : Node σ) :
    Option (Node σ) :=
  if l.standing.role ≠ .leader ∨ batch.term ≠ l.standing.currentTerm ∨
      (l.peers.get? peer).isNone then
    none
  else
    match batch.kind, response with
    | .append prevIndex count, .appendEntries reply =>
      if l.standing.currentTerm < reply.term then none
      else some (l.learned peer fun p =>
        if reply.success then p.recordSuccess (prevIndex + count)
        else p.recordMismatch reply.matchIndex)
    | .snapshot index, .installSnapshot reply =>
      if l.standing.currentTerm < reply.term then none
      else if reply.success then some (l.learned peer (·.recordSuccess index))
      else some (l.recordReply peer fun p => { p with inFlight := false })
    | _, _ => none

/-- One round: a request, its answer, and what the leader learns from it. -/
def exchange (peer : ℕ) (pair : Node σ × Node τ) : Option (Node σ × Node τ) := do
  let ((request, batch), l) ← sends? peer pair.1
  let (response, f) ← answers? request pair.2
  let l ← learns? peer batch response l
  return (l, f)

/-- The given number of rounds. -/
def exchanges (peer : ℕ) : ℕ → Node σ × Node τ → Option (Node σ × Node τ)
  | 0, pair => some pair
  | rounds + 1, pair => exchange peer pair >>= exchanges peer rounds

variable {l l' : Node σ} {f f' : Node τ} {peer : ℕ} {batch : Batch}
  {response : Response}

/-- The end of a request tells the leader so much and no more. -/
theorem handleReplicationReply_eq
    (hlearns : learns? peer batch response l = some l') :
    handleReplicationReply peer batch (some response) l =
      continueReplication peer l' := by
  unfold learns? at hlearns
  unfold handleReplicationReply
  split at hlearns
  · exact absurd hlearns (by simp)
  next hcounts =>
    change (ite _ _ _ : Act σ Unit) l = _
    rw [if_neg hcounts]
    obtain ⟨term, kind⟩ := batch
    cases kind with
    | append prevIndex count =>
        cases response with
        | appendEntries reply =>
            dsimp only at hlearns
            split at hlearns
            · exact absurd hlearns (by simp)
            next hcurrent =>
              obtain rfl := Option.some.inj hlearns
              change (ite _ _ _ : Act σ Unit) _ = _
              rw [if_neg hcurrent]
              rfl
        | _ => exact absurd hlearns (by simp)
    | snapshot index =>
        cases response with
        | installSnapshot reply =>
            dsimp only at hlearns
            split at hlearns
            · exact absurd hlearns (by simp)
            next hcurrent =>
              change (ite _ _ _ : Act σ Unit) _ = _
              rw [if_neg hcurrent]
              split at hlearns
              · next hsuccess =>
                obtain rfl := Option.some.inj hlearns
                rw [if_pos hsuccess]
                rfl
              · next hfailed =>
                obtain rfl := Option.some.inj hlearns
                rw [if_neg hfailed]
        | _ => exact absurd hlearns (by simp)

/-! ## The leader's side -/

/-- The leader can send every part of its log, or the snapshot that it begins
with. -/
structure Supplies (l : Node σ) : Prop where
  role : l.standing.role = .leader
  gapless : l.log.Gapless
  commit_le : l.standing.commitIndex ≤ l.log.lastIndex
  batch : 0 < l.settings.maxBatch
  snapshot : 0 < l.log.snapshotIndex →
    ∃ snapshot, Storage.loadSnapshot l.disk = .ok (some snapshot) ∧
      snapshot.index = l.log.snapshotIndex ∧
      snapshot.term = l.log.snapshotTerm ∧
      (Record.decode? snapshot.data).isSome

theorem Supplies.of_same (h : l.Supplies)
    (hreplica : l'.toReplica = l.toReplica) (hsettings : l'.settings = l.settings) :
    l'.Supplies := by
  constructor
  · rw [hreplica]
    exact h.role
  · rw [hreplica]
    exact h.gapless
  · rw [hreplica]
    exact h.commit_le
  · rw [hsettings]
    exact h.batch
  · rw [hreplica]
    exact h.snapshot

variable {p : Progress} {request : Request} {kind : BatchKind}

/-- The leader with a request under way, and with no other effect. -/
def asked (l : Node σ) (peer : ℕ) (request : Request) (kind : BatchKind) :
    Node σ :=
  ({ l with effects := [] } : Node σ).dispatch peer request kind

theorem sends?_eq (hpeer : l.peers.get? peer = some p)
    (hidle : p.inFlight = false) (hsends : l.Sends p request kind) :
    sends? peer l = some ((request, ⟨l.standing.currentTerm, kind⟩),
      l.asked peer request kind) := by
  have hruns : Ensures (replicateTo peer) { l with effects := [] }
      (fun _ m => m = l.asked peer request kind) fun _ => False := by
    unfold replicateTo
    rw [Ensures.get_bind_iff]
    dsimp only
    rw [hpeer]
    apply Ensures.ite
    · intro hbusy
      exact absurd (hidle.symm.trans hbusy) (by simp)
    intro _
    cases hsends with
    | snapshot hcompacted hload =>
        apply Ensures.ite
        · intro _
          apply Ensures.bind
          apply Ensures.inspect
          · intro found hfound
            obtain rfl := Except.ok.inj (hload.symm.trans hfound)
            rfl
          · intro e hfailed
            exact absurd (hload.symm.trans hfailed) (by simp)
        · intro hheld
          exact absurd hcompacted hheld
    | @entries prevTerm hheld hterm =>
        apply Ensures.ite
        · intro hcompacted
          exact absurd hcompacted hheld.not_ge
        · intro _
          have hprev : l.log.termAt?
              (min p.nextIndex (l.log.lastIndex + 1) - 1) = some prevTerm := hterm
          rw [Counting.plus_eq, Counting.minus_eq, hprev]
          rfl
  obtain ⟨⟨⟩, m, hrun, rfl⟩ := hruns.exists_success?
  unfold sends?
  rw [hrun]
  rfl

omit [Storage σ] in
theorem peers_recordReply (hpeer : l.peers.get? peer = some p)
    (change : Progress → Progress) :
    (l.recordReply peer change).peers.get? peer = some (change p) := by
  change (l.peers.modify peer change).get? peer = _
  rw [Table.get?_modify, if_pos rfl, hpeer]
  rfl

omit [Storage σ] in
theorem peers_asked (hpeer : l.peers.get? peer = some p) (request : Request)
    (kind : BatchKind) :
    (l.asked peer request kind).peers.get? peer =
      some { p with inFlight := true } :=
  peers_recordReply hpeer _

/-- The leader knows the progress of the peer, and is what it was otherwise. -/
structure Knows (l : Node σ) (peer : ℕ) (p : Progress) (l' : Node σ) : Prop where
  replica : l'.toReplica = l.toReplica
  settings : l'.settings = l.settings
  progress : l'.peers.get? peer = some p

omit [Storage σ] in
theorem knows_learned (hpeer : l.peers.get? peer = some p)
    (hidle : p.inFlight = false) (request : Request) (kind : BatchKind)
    (change : Progress → Progress) :
    l.Knows peer (change p)
      ((l.asked peer request kind).learned peer change) := by
  have hfreed := peers_recordReply (peers_asked hpeer request kind)
    fun p => { p with inFlight := false }
  have hsame : { p with inFlight := false } = p := by
    rw [← hidle]
  have hlearned := peers_recordReply (hfreed.trans (congrArg some hsame)) change
  exact ⟨rfl, rfl, hlearned⟩

omit [Storage σ] in
/-- The answer to the request under way counts. -/
theorem counts_asked (hrole : l.standing.role = .leader)
    (hpeer : l.peers.get? peer = some p) :
    ¬ ((l.asked peer request kind).standing.role ≠ .leader ∨
      (Batch.mk l.standing.currentTerm kind).term ≠
        (l.asked peer request kind).standing.currentTerm ∨
      ((l.asked peer request kind).peers.get? peer).isNone) := by
  rw [peers_asked hpeer]
  rintro (hfollows | hlate | hnone)
  · exact hfollows hrole
  · exact hlate rfl
  · exact absurd hnone (by simp)

omit [Storage σ] in
theorem learns?_append (hrole : l.standing.role = .leader)
    (hpeer : l.peers.get? peer = some p) (sent : AppendRequest)
    {reply : AppendReply} (hterm : reply.term ≤ l.standing.currentTerm) :
    learns? peer ⟨l.standing.currentTerm,
        .append sent.prevIndex sent.entries.length⟩ (.appendEntries reply)
        (l.asked peer request (.append sent.prevIndex sent.entries.length)) =
      some ((l.asked peer request
        (.append sent.prevIndex sent.entries.length)).learned peer
          (·.answered sent reply)) := by
  unfold learns?
  rw [if_neg (counts_asked hrole hpeer)]
  exact if_neg hterm.not_gt

omit [Storage σ] in
theorem learns?_snapshot (hrole : l.standing.role = .leader)
    (hpeer : l.peers.get? peer = some p) {index : ℕ} {reply : InstallReply}
    (hsuccess : reply.success = true)
    (hterm : reply.term ≤ l.standing.currentTerm) :
    learns? peer ⟨l.standing.currentTerm, .snapshot index⟩
        (.installSnapshot reply) (l.asked peer request (.snapshot index)) =
      some ((l.asked peer request (.snapshot index)).learned peer
        (·.recordSuccess index)) := by
  unfold learns?
  rw [if_neg (counts_asked hrole hpeer)]
  exact (if_neg hterm.not_gt).trans (if_pos hsuccess)

/-! ## One round -/

omit [Storage τ] in
/-- What comes next is still in the log. -/
theorem Supplies.exists_quotes (h : l.Supplies)
    (hbetween : p.Between l.log.lastIndex)
    (hheld : l.log.snapshotIndex < p.nextIndex) :
    ∃ request : AppendRequest,
      l.Sends p (.appendEntries request)
        (.append request.prevIndex request.entries.length) ∧
      Quotes l.toReplica request ∧ request.prevIndex = p.nextIndex - 1 ∧
      request.entries.length =
        min l.settings.maxBatch (l.log.lastIndex - request.prevIndex) := by
  have hnext := hbetween.next_le
  have hprev : l.beforeNext p = p.nextIndex - 1 := by
    rw [beforeNext_eq]
    omega
  have hboundary : l.log.snapshotIndex ≤ l.beforeNext p := by omega
  obtain ⟨term, hterm⟩ : ∃ term, l.log.termAt? (l.beforeNext p) = some term := by
    cases hterm : l.log.termAt? (l.beforeNext p) with
    | none =>
        have hend := h.gapless.lastIndex_lt_of_termAt? hboundary hterm
        have hahead := hbetween.ahead
        omega
    | some term => exact ⟨term, rfl⟩
  refine ⟨_, .entries hheld hterm, ⟨rfl, rfl, ?_, hterm⟩, hprev, ?_⟩
  · exact h.gapless.lends_entriesFrom hboundary _
  · exact h.gapless.length_entriesFrom hboundary _

omit [Storage τ] in
/-- What comes next is covered by the snapshot. -/
theorem Supplies.exists_encloses (h : l.Supplies)
    (hbetween : p.Between l.log.lastIndex)
    (hcompacted : p.nextIndex ≤ l.log.snapshotIndex) :
    ∃ request : InstallRequest,
      l.Sends p (.installSnapshot request)
        (.snapshot request.lastIncludedIndex) ∧
      Encloses l.toReplica request ∧
      request.lastIncludedIndex = l.log.snapshotIndex := by
  have hpos : 0 < l.log.snapshotIndex := by
    have hahead := hbetween.ahead
    omega
  obtain ⟨snapshot, hload, hindex, hterm, hreadable⟩ := h.snapshot hpos
  refine ⟨_, .snapshot hcompacted hload, ⟨rfl, ?_, ?_, hreadable⟩, hindex⟩
  · exact hpos.trans_eq hindex.symm
  · change l.log.termAt? snapshot.index = some snapshot.term
    rw [hindex, hterm]
    unfold Log.termAt?
    rw [if_neg hpos.ne', if_pos rfl]

/-! ## One round -/

theorem exchange_eq {request : Request} {m : Node σ}
    (hsends : sends? peer l = some ((request, batch), m))
    (hanswers : answers? request f = some (response, f'))
    (hlearns : learns? peer batch response m = some l') :
    exchange peer (l, f) = some (l', f') := by
  unfold exchange
  rw [hsends]
  change (answers? request f >>= fun answer => _) = _
  rw [hanswers]
  change (learns? peer batch response m >>= fun l => _) = _
  rw [hlearns]
  rfl

/-- After some rounds with the leader `l`. -/
structure Pursues (W : τ → Prop) (l : Node σ) (peer : ℕ) (p : Progress)
    (l' : Node σ) (f : Node τ) : Prop where
  knows : l.Knows peer p l'
  between : p.Between l.log.lastIndex
  trails : f.Trails W l.toReplica p.matchIndex

/-- A round brings the leader and the follower further. -/
def Furthers (W : τ → Prop) (peer : ℕ) (p : Progress) (l : Node σ) (f : Node τ) :
    Prop :=
  ∃ p' l' f', exchange peer (l, f) = some (l', f') ∧
    Pursues W l peer p' l' f' ∧
    p'.remaining l.log.lastIndex ≤ p.remaining l.log.lastIndex - 1

variable {W : τ → Prop}

theorem furthers_of_held (hworks : Storage.Works W) (hsupplies : l.Supplies)
    (hpeer : l.peers.get? peer = some p) (hbetween : p.Between l.log.lastIndex)
    (htrails : f.Trails W l.toReplica p.matchIndex)
    (hheld : l.log.snapshotIndex < p.nextIndex) : Furthers W peer p l f := by
  obtain ⟨request, hsends, hquotes, hprev, hlength⟩ :=
    hsupplies.exists_quotes hbetween hheld
  obtain ⟨reply, f', hrun, hreplies⟩ :=
    (htrails.ensures_handleAppendRequest hworks hquotes).exists_success?
  have hanswers : answers? (.appendEntries request) f =
      some (.appendEntries reply, f') :=
    congrArg (Option.map (Prod.map Response.appendEntries id)) hrun
  have hexchange := exchange_eq (sends?_eq hpeer hbetween.idle hsends) hanswers
    (learns?_append hsupplies.role hpeer request hreplies.term_le)
  have hknows := knows_learned hpeer hbetween.idle (.appendEntries request)
    (.append request.prevIndex request.entries.length)
    (·.answered request reply)
  obtain ⟨hbetween', hremaining⟩ := hbetween.answered hsupplies.batch hprev
    hlength hreplies.refused
  have htold := hreplies.trails
  rw [← Progress.matchIndex_answered] at htold
  exact ⟨_, _, f', hexchange, ⟨hknows, hbetween', htold⟩, hremaining⟩

theorem furthers_of_compacted (hworks : Storage.Works W)
    (hsupplies : l.Supplies) (hpeer : l.peers.get? peer = some p)
    (hbetween : p.Between l.log.lastIndex)
    (htrails : f.Trails W l.toReplica p.matchIndex)
    (hcompacted : p.nextIndex ≤ l.log.snapshotIndex) :
    Furthers W peer p l f := by
  obtain ⟨request, hsends, hencloses, hindex⟩ :=
    hsupplies.exists_encloses hbetween hcompacted
  obtain ⟨reply, f', hrun, hsuccess, hterm, htold⟩ :=
    (htrails.ensures_handleInstallRequest hworks hencloses).exists_success?
  have hanswers : answers? (.installSnapshot request) f =
      some (.installSnapshot reply, f') :=
    congrArg (Option.map (Prod.map Response.installSnapshot id)) hrun
  have hexchange := exchange_eq (sends?_eq hpeer hbetween.idle hsends) hanswers
    (learns?_snapshot hsupplies.role hpeer hsuccess hterm)
  have hknows := knows_learned hpeer hbetween.idle (.installSnapshot request)
    (.snapshot request.lastIncludedIndex)
    (·.recordSuccess request.lastIncludedIndex)
  have hlast := hsupplies.gapless.boundary_le_last
  have hahead := hbetween.ahead
  obtain ⟨hbetween', hremaining⟩ := hbetween.recordSuccess
    (hindex.trans_le hlast) (by omega) (by omega)
  exact ⟨_, _, f', hexchange, ⟨hknows, hbetween', htold⟩, hremaining⟩

/-! ## All rounds -/

theorem Pursues.furthers {m : Node σ} (h : Pursues W l peer p m f)
    (hworks : Storage.Works W) (hsupplies : l.Supplies) :
    ∃ p' m' f', exchange peer (m, f) = some (m', f') ∧
      Pursues W l peer p' m' f' ∧
      p'.remaining l.log.lastIndex ≤ p.remaining l.log.lastIndex - 1 := by
  obtain ⟨hreplica, hsettings, hpeer⟩ := h.knows
  have hsupplies := hsupplies.of_same hreplica hsettings
  have hbetween : p.Between m.log.lastIndex := hreplica ▸ h.between
  have htrails : f.Trails W m.toReplica p.matchIndex := hreplica ▸ h.trails
  have hfurther : Furthers W peer p m f := by
    rcases le_or_gt p.nextIndex m.log.snapshotIndex with hcompacted | hheld
    · exact furthers_of_compacted hworks hsupplies hpeer hbetween htrails
        hcompacted
    · exact furthers_of_held hworks hsupplies hpeer hbetween htrails hheld
  obtain ⟨p', m', f', hexchange, hpursues, hremaining⟩ := hfurther
  rw [hreplica] at hremaining
  refine ⟨p', m', f', hexchange, ⟨?_, ?_, ?_⟩, hremaining⟩
  · exact ⟨hpursues.knows.replica.trans hreplica,
      hpursues.knows.settings.trans hsettings, hpursues.knows.progress⟩
  · exact hreplica ▸ hpursues.between
  · exact hreplica ▸ hpursues.trails

/-- Every round takes away from what remains, until nothing does. -/
theorem Pursues.exchanges {m : Node σ} (h : Pursues W l peer p m f)
    (hworks : Storage.Works W) (hsupplies : l.Supplies) (rounds : ℕ) :
    ∃ p' m' f', Node.exchanges peer rounds (m, f) = some (m', f') ∧
      Pursues W l peer p' m' f' ∧
      p'.remaining l.log.lastIndex ≤ p.remaining l.log.lastIndex - rounds := by
  induction rounds generalizing p m f with
  | zero => exact ⟨p, m, f, rfl, h, le_rfl⟩
  | succ rounds ih =>
      obtain ⟨p', m', f', hexchange, hpursues, hone⟩ :=
        h.furthers hworks hsupplies
      obtain ⟨p'', m'', f'', hexchanges, hpursues', hmore⟩ := ih hpursues
      refine ⟨p'', m'', f'', ?_, hpursues', by omega⟩
      change exchange peer (m, f) >>= Node.exchanges peer rounds = _
      rw [hexchange]
      exact hexchanges

/-- Wherever a leader begins, after as many rounds as its log has indices, and as
it may have to go back, the follower has everything that the leader has, and the
leader knows. -/
theorem replication_converges (hworks : Storage.Works W) (hsupplies : l.Supplies)
    (htrails : f.Trails W l.toReplica 0) {next : ℕ}
    (hpeer : l.peers.get? peer = some (.start next)) (hpos : 1 ≤ next)
    (hnext : next ≤ l.log.lastIndex + 1) {rounds : ℕ}
    (hrounds : l.log.lastIndex + next ≤ rounds + 1) :
    ∃ l' f', exchanges peer rounds (l, f) = some (l', f') ∧
      l'.peers.get? peer = some ⟨l.log.lastIndex + 1, l.log.lastIndex, false⟩ ∧
      l'.toReplica = l.toReplica ∧
      l.log.lastIndex ≤ f'.log.lastIndex ∧ l.log.Reproduces f'.log ∧
      l.standing.commitIndex ≤ f'.standing.commitIndex := by
  have hpursues : Pursues W l peer (.start next) l f :=
    ⟨⟨rfl, rfl, hpeer⟩, Progress.between_start hpos hnext, htrails⟩
  obtain ⟨p, l', f', hexchanges, hpursues', hremaining⟩ :=
    hpursues.exchanges hworks hsupplies rounds
  rw [Progress.remaining_start] at hremaining
  obtain rfl := hpursues'.between.eq_of_remaining (by omega)
  have hcaught := hpursues'.trails
  have hshares : l.log.Shares f'.log l.log.lastIndex :=
    hcaught.shares.of_le (Nat.le_max_right _ _)
  have htold := hcaught.told
  have hcommit := hsupplies.commit_le
  refine ⟨l', f', hexchanges, hpursues'.knows.progress, hpursues'.knows.replica,
    hshares.le_last, hshares.reproduces hsupplies.gapless, ?_⟩
  exact (Nat.min_eq_left hcommit) ▸ htold

/-- A leader that has dropped its first two entries, and sends one at a time. -/
def provider : Node Memory where
  log := ⟨[⟨3, 3, .noop⟩, ⟨3, 4, .noop⟩], 2, 3⟩
  disk := {
    hardState := ⟨3, some 1⟩
    entries := [⟨3, 3, .noop⟩, ⟨3, 4, .noop⟩]
    snapshot := some ⟨2, 3, .ofList [1, 2], Record.encode {}⟩ }
  standing := {
    currentTerm := 3
    votedFor := some 1
    commitIndex := 3
    lastApplied := 3
    role := .leader
    leader := some 1 }
  settings := { members := [1, 2], maxBatch := 1 }
  membership := .settled (.ofList [1, 2])
  peers := (∅ : Table Progress).insert 2 (.start 5)
  commandWaiters := ∅
  changeWaiters := ∅
  persisted := ⟨3, some 1⟩
  recorder := {}
  effects := []

/-- A follower with entries of a leader that is gone. -/
def straggler : Node Memory where
  log := ⟨[⟨1, 1, .noop⟩, ⟨2, 2, .noop⟩, ⟨2, 3, .noop⟩], 0, 0⟩
  disk := {
    hardState := ⟨2, some 2⟩
    entries := [⟨1, 1, .noop⟩, ⟨2, 2, .noop⟩, ⟨2, 3, .noop⟩] }
  standing := {
    currentTerm := 2
    votedFor := some 2
    commitIndex := 1
    lastApplied := 1 }
  settings := { nodeId := 2, members := [1, 2] }
  membership := .settled (.ofList [1, 2])
  peers := ∅
  commandWaiters := ∅
  changeWaiters := ∅
  persisted := ⟨2, some 2⟩
  recorder := {}
  effects := []

theorem supplies_provider : provider.Supplies where
  role := rfl
  gapless := .cons rfl (.cons rfl (.nil 4))
  commit_le := by decide
  batch := by decide
  snapshot _ := by
    have hfits : Record.Fits {} := (Record.below_empty 0).fits (by decide)
    refine ⟨_, rfl, rfl, rfl, ?_⟩
    rw [Record.decode?_encode, if_pos hfits]
    rfl

theorem gapless_straggler : straggler.log.Gapless :=
  .cons rfl (.cons rfl (.cons rfl (.nil 3)))

theorem shares_straggler : provider.log.Shares straggler.log 1 where
  gapless := gapless_straggler
  coheres i a b ha hb hterm := by
    have hlt : 2 < i := Log.lt_of_get? ha
    have hle : i ≤ 3 := (gapless_straggler.range_of_get? hb).2.1
    obtain rfl : i = 3 := by omega
    obtain rfl := Option.some.inj ha
    obtain rfl := Option.some.inj hb
    exact absurd hterm (by decide)
  agrees i hi := Log.agreesAt_of_lt (Or.inl (hi.trans_lt (by decide)))
  le_last := by decide

theorem trails_straggler :
    straggler.Trails Memory.Clean provider.toReplica 0 where
  disk := ⟨rfl, rfl⟩
  role := by decide
  term_le := by decide
  boundary_le := by decide
  applied_le := by decide
  told := by decide
  shares := shares_straggler

/-- The leader goes back to the snapshot, and the follower gets all that comes
after it. -/
theorem straggler_converges :
    ∃ l' f', exchanges 2 8 (provider, straggler) = some (l', f') ∧
      l'.peers.get? 2 = some ⟨5, 4, false⟩ ∧
      provider.log.Reproduces f'.log ∧ 3 ≤ f'.standing.commitIndex := by
  obtain ⟨l', f', hexchanges, hprogress, -, -, hlog, hcommit⟩ :=
    replication_converges works_clean supplies_provider trails_straggler
      (show provider.peers.get? 2 = some (.start 5) by decide) (by decide)
      (by decide) (show 4 + 5 ≤ 8 + 1 by decide)
  exact ⟨l', f', hexchanges, hprogress, hlog, hcommit⟩

end Node

end Consensus
