import Consensus.Cluster.Network
import Consensus.Proofs.Json.Recovery

/-!
# Messages are read as they were written

Every request and every response, and every value that a node stores, is read as it
was written if its numbers fit in 64 bits.  The readers accept more than the writers
produce, such as fields in another order, but they accept no number that does not fit.
So whatever has been read from any bytes can be written and read again.
-/

namespace Consensus

open Json (Recovers recovers_word)

/-! ## What can be written -/

section Fits

variable (Writable : ℕ → Prop)

/-- The number in a change can be written. -/
def ServerChange.Fits : ServerChange → Prop
  | .add id => Writable id
  | .remove id => Writable id

/-- The numbers in a vote request can all be written. -/
structure VoteRequest.Fits (r : VoteRequest) : Prop where
  term : Writable r.term
  candidate : Writable r.candidate
  lastLogIndex : Writable r.lastLogIndex
  lastLogTerm : Writable r.lastLogTerm

/-- The numbers in an append request can all be written, those in its entries too. -/
structure AppendRequest.Fits (r : AppendRequest) : Prop where
  term : Writable r.term
  leader : Writable r.leader
  prevIndex : Writable r.prevIndex
  prevTerm : Writable r.prevTerm
  entries : ∀ entry ∈ r.entries, entry.Fits Writable
  leaderCommit : Writable r.leaderCommit

/-- The numbers in a snapshot on its way can all be written. -/
structure InstallRequest.Fits (r : InstallRequest) : Prop where
  term : Writable r.term
  leader : Writable r.leader
  lastIncludedIndex : Writable r.lastIncludedIndex
  lastIncludedTerm : Writable r.lastIncludedTerm
  members : ∀ id ∈ r.members.toList, Writable id

/-- The numbers in a request can all be written. -/
def Request.Fits : Request → Prop
  | .requestVote r => r.Fits Writable
  | .appendEntries r => r.Fits Writable
  | .installSnapshot r => r.Fits Writable
  | .addServer peer => Writable peer
  | .removeServer peer => Writable peer
  | .clientCommand _ => True
  | .whoIsTheLeader => True

/-- The number in the reply to a command can be written, if there is one. -/
def CommandReply.Fits : CommandReply → Prop
  | .applied index => Writable index
  | .notLeader hint => ∀ id, hint = some id → Writable id
  | _ => True

/-- The numbers in a response can all be written. -/
def Response.Fits : Response → Prop
  | .vote r => Writable r.term
  | .appendEntries r => Writable r.term ∧ Writable r.matchIndex
  | .installSnapshot r => Writable r.term
  | .configChange r => ∀ id, r.leaderHint = some id → Writable id
  | .command r => r.Fits Writable
  | .leader id => ∀ leader, id = some leader → Writable leader

end Fits

/-! ## Stored values -/

theorem NodeSet.recovers :
    Recovers (fun members : NodeSet => ∀ id ∈ members.toList, IsWord id) toJson
      ofJson? where
  plain := plain_toJson
  reads _ := ofJson?_toJson
  fits j members hread id hid := by
    unfold ofJson? at hread
    split at hread
    · obtain ⟨ids, hids, rfl⟩ := Option.map_eq_some_iff.mp hread
      rw [mem_toList, mem_ofList] at hid
      exact recovers_word.list.required hids id hid
    · exact absurd hread (by simp)

theorem Payload.recovers :
    Recovers (fun payload : Payload => ∀ members, payload = .config members →
      ∀ id ∈ members.toList, IsWord id) toJson ofJson? where
  plain := plain_toJson
  reads _ := ofJson?_toJson
  fits j payload hread members hmembers := by
    subst hmembers
    unfold ofJson? at hread
    split at hread
    · exact absurd hread (by simp)
    · exact absurd hread (by simp)
    · obtain ⟨found, hfound, hconfig⟩ := Option.map_eq_some_iff.mp hread
      obtain rfl := Payload.config.inj hconfig
      exact NodeSet.recovers.fits _ _ hfound
    · exact absurd hread (by simp)

theorem Entry.recovers : Recovers (Entry.Fits IsWord) toJson ofJson? where
  plain := plain_toJson
  reads _ := ofJson?_toJson
  fits j entry hread := by
    unfold ofJson? at hread
    split at hread
    · simp only [Option.bind_eq_bind, Option.bind_eq_some_iff, Option.pure_def,
        Option.some.injEq] at hread
      obtain ⟨term, hterm, index, hindex, payload, hpayload, rfl⟩ := hread
      exact ⟨recovers_word.required hterm, recovers_word.required hindex,
        Payload.recovers.required hpayload⟩
    · exact absurd hread (by simp)

theorem HardState.recovers : Recovers (HardState.Fits IsWord) toJson ofJson? where
  plain := plain_toJson
  reads _ := ofJson?_toJson
  fits j hard hread := by
    unfold ofJson? at hread
    split at hread
    · simp only [Option.bind_eq_bind, Option.bind_eq_some_iff, Option.pure_def,
        Option.some.injEq] at hread
      obtain ⟨term, hterm, vote, hvote, rfl⟩ := hread
      exact ⟨recovers_word.required hterm,
        recovers_word.optional Json.ofNat_ne_null hvote⟩
    · exact absurd hread (by simp)

theorem Snapshot.recovers : Recovers (Snapshot.Fits IsWord) toJson ofJson? where
  plain := plain_toJson
  reads _ := ofJson?_toJson
  fits j snapshot hread := by
    unfold ofJson? at hread
    split at hread
    · simp only [Option.bind_eq_bind, Option.bind_eq_some_iff, Option.pure_def,
        Option.some.injEq] at hread
      obtain ⟨index, hindex, term, hterm, members, hmembers, data, -, rfl⟩ := hread
      exact ⟨recovers_word.required hindex, recovers_word.required hterm,
        NodeSet.recovers.required hmembers⟩
    · exact absurd hread (by simp)

theorem ServerChange.recovers : Recovers (ServerChange.Fits IsWord) toJson ofJson? where
  plain change := by
    cases change with
    | add id => exact Json.plain_ofVariant (Json.plain_ofNat id)
    | remove id => exact Json.plain_ofVariant (Json.plain_ofNat id)
  reads change hfits := by
    cases change with
    | add id =>
        have hid : (Json.ofNat id).word? = some id := recovers_word.reads id hfits
        rw [ofJson?, toJson, Json.variant?_ofVariant]
        simp only [hid, Option.map_some]
    | remove id =>
        have hid : (Json.ofNat id).word? = some id := recovers_word.reads id hfits
        rw [ofJson?, toJson, Json.variant?_ofVariant]
        simp only [hid, Option.map_some]
  fits j change hread := by
    unfold ofJson? at hread
    split at hread
    · obtain ⟨id, hid, rfl⟩ := Option.map_eq_some_iff.mp hread
      exact recovers_word.fits _ id hid
    · obtain ⟨id, hid, rfl⟩ := Option.map_eq_some_iff.mp hread
      exact recovers_word.fits _ id hid
    · exact absurd hread (by simp)

/-! ## Requests -/

theorem VoteRequest.recovers : Recovers (VoteRequest.Fits IsWord) toJson ofJson? where
  plain r := by
    refine Json.plain_ofRecord fun field hfield => ?_
    simp only [List.mem_cons, List.not_mem_nil, or_false] at hfield
    rcases hfield with rfl | rfl | rfl | rfl <;> exact Json.plain_ofNat _
  reads r hfits := by
    have hfields : r.toJson.fields?
        ["term", "candidate_id", "last_log_index", "last_log_term"] =
          some [some (.ofNat r.term), some (.ofNat r.candidate),
            some (.ofNat r.lastLogIndex), some (.ofNat r.lastLogTerm)] :=
      Json.fields?_ofRecord rfl (by decide)
    simp only [ofJson?, hfields, Json.required, Json.word?_ofNat hfits.term,
      Json.word?_ofNat hfits.candidate, Json.word?_ofNat hfits.lastLogIndex,
      Json.word?_ofNat hfits.lastLogTerm]
    rfl
  fits j r hread := by
    unfold ofJson? at hread
    split at hread
    · simp only [Option.bind_eq_bind, Option.bind_eq_some_iff, Option.pure_def,
        Option.some.injEq] at hread
      obtain ⟨term, hterm, candidate, hcandidate, index, hindex, last, hlast, rfl⟩ := hread
      exact ⟨recovers_word.required hterm, recovers_word.required hcandidate,
        recovers_word.required hindex, recovers_word.required hlast⟩
    · exact absurd hread (by simp)

theorem AppendRequest.recovers :
    Recovers (AppendRequest.Fits IsWord) toJson ofJson? where
  plain r := by
    refine Json.plain_ofRecord fun field hfield => ?_
    simp only [List.mem_cons, List.not_mem_nil, or_false] at hfield
    rcases hfield with rfl | rfl | rfl | rfl | rfl | rfl
    · exact Json.plain_ofNat _
    · exact Json.plain_ofNat _
    · exact Json.plain_ofNat _
    · exact Json.plain_ofNat _
    · exact Entry.recovers.list.plain r.entries
    · exact Json.plain_ofNat _
  reads r hfits := by
    have hfields : r.toJson.fields?
        ["term", "leader_id", "prev_log_index", "prev_log_term", "entries",
          "leader_commit"] =
          some [some (.ofNat r.term), some (.ofNat r.leader), some (.ofNat r.prevIndex),
            some (.ofNat r.prevTerm), some (.ofList Entry.toJson r.entries),
            some (.ofNat r.leaderCommit)] :=
      Json.fields?_ofRecord rfl (by decide)
    simp only [ofJson?, hfields, Json.required, Json.word?_ofNat hfits.term,
      Json.word?_ofNat hfits.leader, Json.word?_ofNat hfits.prevIndex,
      Json.word?_ofNat hfits.prevTerm, Entry.recovers.list.reads r.entries hfits.entries,
      Json.word?_ofNat hfits.leaderCommit]
    rfl
  fits j r hread := by
    unfold ofJson? at hread
    split at hread
    · simp only [Option.bind_eq_bind, Option.bind_eq_some_iff, Option.pure_def,
        Option.some.injEq] at hread
      obtain ⟨term, hterm, leader, hleader, prevIndex, hprevIndex, prevTerm, hprevTerm,
        entries, hentries, commit, hcommit, rfl⟩ := hread
      exact ⟨recovers_word.required hterm, recovers_word.required hleader,
        recovers_word.required hprevIndex, recovers_word.required hprevTerm,
        Entry.recovers.list.required hentries, recovers_word.required hcommit⟩
    · exact absurd hread (by simp)

theorem InstallRequest.recovers :
    Recovers (InstallRequest.Fits IsWord) toJson ofJson? where
  plain r := by
    refine Json.plain_ofRecord fun field hfield => ?_
    simp only [List.mem_cons, List.not_mem_nil, or_false] at hfield
    rcases hfield with rfl | rfl | rfl | rfl | rfl | rfl
    · exact Json.plain_ofNat _
    · exact Json.plain_ofNat _
    · exact Json.plain_ofNat _
    · exact Json.plain_ofNat _
    · exact r.members.plain_toJson
    · exact Json.plain_ofBytes _
  reads r hfits := by
    have hfields : r.toJson.fields?
        ["term", "leader_id", "last_included_index", "last_included_term", "config",
          "data"] =
          some [some (.ofNat r.term), some (.ofNat r.leader),
            some (.ofNat r.lastIncludedIndex), some (.ofNat r.lastIncludedTerm),
            some r.members.toJson, some (.ofBytes r.data)] :=
      Json.fields?_ofRecord rfl (by decide)
    simp only [ofJson?, hfields, Json.required, Json.word?_ofNat hfits.term,
      Json.word?_ofNat hfits.leader, Json.word?_ofNat hfits.lastIncludedIndex,
      Json.word?_ofNat hfits.lastIncludedTerm, NodeSet.ofJson?_toJson hfits.members,
      Json.bytes?_ofBytes]
    rfl
  fits j r hread := by
    unfold ofJson? at hread
    split at hread
    · simp only [Option.bind_eq_bind, Option.bind_eq_some_iff, Option.pure_def,
        Option.some.injEq] at hread
      obtain ⟨term, hterm, leader, hleader, index, hindex, last, hlast, members,
        hmembers, data, -, rfl⟩ := hread
      exact ⟨recovers_word.required hterm, recovers_word.required hleader,
        recovers_word.required hindex, recovers_word.required hlast,
        NodeSet.recovers.required hmembers⟩
    · exact absurd hread (by simp)

theorem Request.recovers : Recovers (Request.Fits IsWord) toJson ofJson? where
  plain r := by
    cases r with
    | requestVote r => exact Json.plain_ofVariant (VoteRequest.recovers.plain r)
    | appendEntries r => exact Json.plain_ofVariant (AppendRequest.recovers.plain r)
    | installSnapshot r => exact Json.plain_ofVariant (InstallRequest.recovers.plain r)
    | addServer peer =>
        exact Json.plain_ofVariant (Json.plain_ofVariant (Json.plain_ofNat peer))
    | removeServer peer =>
        exact Json.plain_ofVariant (Json.plain_ofVariant (Json.plain_ofNat peer))
    | clientCommand payload =>
        exact Json.plain_ofVariant (Json.plain_ofVariant (Json.plain_ofBytes payload))
    | whoIsTheLeader => exact Json.plain_ofText _
  reads r hfits := by
    cases r with
    | requestVote r =>
        simp only [ofJson?, toJson, Json.variant?_ofVariant,
          VoteRequest.recovers.reads r hfits, Option.map_some]
    | appendEntries r =>
        simp only [ofJson?, toJson, Json.variant?_ofVariant,
          AppendRequest.recovers.reads r hfits, Option.map_some]
    | installSnapshot r =>
        simp only [ofJson?, toJson, Json.variant?_ofVariant,
          InstallRequest.recovers.reads r hfits, Option.map_some]
    | addServer peer =>
        simp only [ofJson?, toJson, Json.variant?_ofVariant, Json.field1?_ofRecord,
          Json.required, recovers_word.reads peer hfits, Option.map_some]
    | removeServer peer =>
        simp only [ofJson?, toJson, Json.variant?_ofVariant, Json.field1?_ofRecord,
          Json.required, recovers_word.reads peer hfits, Option.map_some]
    | clientCommand payload =>
        simp only [ofJson?, toJson, Json.variant?_ofVariant, Json.field1?_ofRecord,
          Json.required, Json.bytes?_ofBytes, Option.map_some]
    | whoIsTheLeader =>
        simp only [ofJson?, toJson, Json.variant?_ofText, Json.isBare, if_true]
  fits j r hread := by
    unfold ofJson? at hread
    split at hread
    · obtain ⟨r, hr, rfl⟩ := Option.map_eq_some_iff.mp hread
      exact VoteRequest.recovers.fits _ r hr
    · obtain ⟨r, hr, rfl⟩ := Option.map_eq_some_iff.mp hread
      exact AppendRequest.recovers.fits _ r hr
    · obtain ⟨r, hr, rfl⟩ := Option.map_eq_some_iff.mp hread
      exact InstallRequest.recovers.fits _ r hr
    · obtain ⟨peer, hpeer, rfl⟩ := Option.map_eq_some_iff.mp hread
      exact recovers_word.of_field1? hpeer
    · obtain ⟨peer, hpeer, rfl⟩ := Option.map_eq_some_iff.mp hread
      exact recovers_word.of_field1? hpeer
    · obtain ⟨payload, -, rfl⟩ := Option.map_eq_some_iff.mp hread
      trivial
    · obtain ⟨-, hr⟩ := Option.ite_none_right_eq_some.mp hread
      obtain rfl := Option.some.inj hr
      trivial
    · exact absurd hread (by simp)

/-! ## Responses -/

theorem VoteReply.recovers :
    Recovers (fun r : VoteReply => IsWord r.term) toJson ofJson? where
  plain r := by
    refine Json.plain_ofRecord fun field hfield => ?_
    simp only [List.mem_cons, List.not_mem_nil, or_false] at hfield
    rcases hfield with rfl | rfl
    · exact Json.plain_ofNat _
    · trivial
  reads r hfits := by
    have hfields : r.toJson.fields? ["term", "vote_granted"] =
        some [some (.ofNat r.term), some (.bool r.granted)] :=
      Json.fields?_ofRecord rfl (by decide)
    simp only [ofJson?, hfields, Json.required, Json.word?_ofNat hfits, Json.bool?]
    rfl
  fits j r hread := by
    unfold ofJson? at hread
    split at hread
    · simp only [Option.bind_eq_bind, Option.bind_eq_some_iff, Option.pure_def,
        Option.some.injEq] at hread
      obtain ⟨term, hterm, granted, -, rfl⟩ := hread
      exact recovers_word.required hterm
    · exact absurd hread (by simp)

theorem AppendReply.recovers :
    Recovers (fun r : AppendReply => IsWord r.term ∧ IsWord r.matchIndex) toJson
      ofJson? where
  plain r := by
    refine Json.plain_ofRecord fun field hfield => ?_
    simp only [List.mem_cons, List.not_mem_nil, or_false] at hfield
    rcases hfield with rfl | rfl | rfl
    · exact Json.plain_ofNat _
    · trivial
    · exact Json.plain_ofNat _
  reads r hfits := by
    have hfields : r.toJson.fields? ["term", "success", "match_index"] =
        some [some (.ofNat r.term), some (.bool r.success), some (.ofNat r.matchIndex)] :=
      Json.fields?_ofRecord rfl (by decide)
    simp only [ofJson?, hfields, Json.required, Json.word?_ofNat hfits.1, Json.bool?,
      Json.word?_ofNat hfits.2]
    rfl
  fits j r hread := by
    unfold ofJson? at hread
    split at hread
    · simp only [Option.bind_eq_bind, Option.bind_eq_some_iff, Option.pure_def,
        Option.some.injEq] at hread
      obtain ⟨term, hterm, success, -, index, hindex, rfl⟩ := hread
      exact ⟨recovers_word.required hterm, recovers_word.required hindex⟩
    · exact absurd hread (by simp)

theorem InstallReply.recovers :
    Recovers (fun r : InstallReply => IsWord r.term) toJson ofJson? where
  plain r := by
    refine Json.plain_ofRecord fun field hfield => ?_
    simp only [List.mem_cons, List.not_mem_nil, or_false] at hfield
    rcases hfield with rfl | rfl
    · exact Json.plain_ofNat _
    · trivial
  reads r hfits := by
    have hfields : r.toJson.fields? ["term", "success"] =
        some [some (.ofNat r.term), some (.bool r.success)] :=
      Json.fields?_ofRecord rfl (by decide)
    simp only [ofJson?, hfields, Json.required, Json.word?_ofNat hfits, Json.bool?]
    rfl
  fits j r hread := by
    unfold ofJson? at hread
    split at hread
    · simp only [Option.bind_eq_bind, Option.bind_eq_some_iff, Option.pure_def,
        Option.some.injEq] at hread
      obtain ⟨term, hterm, success, -, rfl⟩ := hread
      exact recovers_word.required hterm
    · exact absurd hread (by simp)

theorem ChangeStatus.recovers :
    Recovers (fun _ : ChangeStatus => True) toJson ofJson? where
  plain status := by
    cases status <;> exact Json.plain_ofText _
  reads status _ := by
    cases status <;> simp [ofJson?, toJson, Json.variant?_ofText, Json.isBare]
  fits _ _ _ := trivial

/-- A hint is read as it was, whether there is one or not. -/
theorem recovers_hint :
    Recovers (fun hint : Option ℕ => ∀ id, hint = some id → IsWord id)
      (Json.ofOption .ofNat) (Json.nullable Json.word?) :=
  recovers_word.nullable Json.ofNat_ne_null

theorem ChangeReply.recovers :
    Recovers (fun r : ChangeReply => ∀ id, r.leaderHint = some id → IsWord id) toJson
      ofJson? where
  plain r := by
    refine Json.plain_ofRecord fun field hfield => ?_
    simp only [List.mem_cons, List.not_mem_nil, or_false] at hfield
    rcases hfield with rfl | rfl
    · exact ChangeStatus.recovers.plain r.status
    · exact recovers_hint.plain r.leaderHint
  reads r hfits := by
    have hfields : r.toJson.fields? ["status", "leader_hint"] =
        some [some r.status.toJson, some (.ofOption .ofNat r.leaderHint)] :=
      Json.fields?_ofRecord rfl (by decide)
    simp only [ofJson?, hfields, Json.required, Json.optional,
      ChangeStatus.recovers.reads r.status trivial, recovers_hint.reads r.leaderHint hfits]
    rfl
  fits j r hread := by
    unfold ofJson? at hread
    split at hread
    · simp only [Option.bind_eq_bind, Option.bind_eq_some_iff, Option.pure_def,
        Option.some.injEq] at hread
      obtain ⟨status, -, hint, hhint, rfl⟩ := hread
      exact recovers_word.optional Json.ofNat_ne_null hhint
    · exact absurd hread (by simp)

theorem CommandReply.recovers : Recovers (CommandReply.Fits IsWord) toJson ofJson? where
  plain r := by
    cases r with
    | applied index =>
        exact Json.plain_ofVariant (Json.plain_ofVariant (Json.plain_ofNat index))
    | notLeader hint =>
        exact Json.plain_ofVariant (Json.plain_ofVariant (recovers_hint.plain hint))
    | leadershipLost => exact Json.plain_ofText _
    | timeout => exact Json.plain_ofText _
    | failed reason =>
        exact Json.plain_ofVariant (Json.plain_ofVariant (Json.plain_ofText reason))
  reads r hfits := by
    cases r with
    | applied index =>
        simp only [ofJson?, toJson, Json.variant?_ofVariant, Json.field1?_ofRecord,
          Json.required, recovers_word.reads index hfits, Option.map_some]
    | notLeader hint =>
        simp only [ofJson?, toJson, Json.variant?_ofVariant, Json.field1?_ofRecord,
          Json.optional, recovers_hint.reads hint hfits, Option.map_some]
    | leadershipLost =>
        simp only [ofJson?, toJson, Json.variant?_ofText, Json.isBare, if_true]
    | timeout =>
        simp only [ofJson?, toJson, Json.variant?_ofText, Json.isBare, if_true]
    | failed reason =>
        simp only [ofJson?, toJson, Json.variant?_ofVariant, Json.field1?_ofRecord,
          Json.required, Json.text?_ofText, Option.map_some]
  fits j r hread := by
    unfold ofJson? at hread
    split at hread
    · obtain ⟨index, hindex, rfl⟩ := Option.map_eq_some_iff.mp hread
      exact recovers_word.of_field1? hindex
    · obtain ⟨hint, hhint, rfl⟩ := Option.map_eq_some_iff.mp hread
      obtain ⟨field, hfield⟩ := Json.exists_of_field1? hhint
      exact recovers_word.optional Json.ofNat_ne_null hfield
    · obtain ⟨-, hr⟩ := Option.ite_none_right_eq_some.mp hread
      obtain rfl := Option.some.inj hr
      trivial
    · obtain ⟨-, hr⟩ := Option.ite_none_right_eq_some.mp hread
      obtain rfl := Option.some.inj hr
      trivial
    · obtain ⟨reason, -, rfl⟩ := Option.map_eq_some_iff.mp hread
      trivial
    · exact absurd hread (by simp)

theorem Response.recovers : Recovers (Response.Fits IsWord) toJson ofJson? where
  plain r := by
    cases r with
    | vote r => exact Json.plain_ofVariant (VoteReply.recovers.plain r)
    | appendEntries r => exact Json.plain_ofVariant (AppendReply.recovers.plain r)
    | installSnapshot r => exact Json.plain_ofVariant (InstallReply.recovers.plain r)
    | configChange r => exact Json.plain_ofVariant (ChangeReply.recovers.plain r)
    | command r => exact Json.plain_ofVariant (CommandReply.recovers.plain r)
    | leader id => exact Json.plain_ofVariant (recovers_hint.plain id)
  reads r hfits := by
    cases r with
    | vote r =>
        simp only [ofJson?, toJson, Json.variant?_ofVariant,
          VoteReply.recovers.reads r hfits, Option.map_some]
    | appendEntries r =>
        simp only [ofJson?, toJson, Json.variant?_ofVariant,
          AppendReply.recovers.reads r hfits, Option.map_some]
    | installSnapshot r =>
        simp only [ofJson?, toJson, Json.variant?_ofVariant,
          InstallReply.recovers.reads r hfits, Option.map_some]
    | configChange r =>
        simp only [ofJson?, toJson, Json.variant?_ofVariant,
          ChangeReply.recovers.reads r hfits, Option.map_some]
    | command r =>
        simp only [ofJson?, toJson, Json.variant?_ofVariant,
          CommandReply.recovers.reads r hfits, Option.map_some]
    | leader id =>
        simp only [ofJson?, toJson, Json.variant?_ofVariant,
          recovers_hint.reads id hfits, Option.map_some]
  fits j r hread := by
    unfold ofJson? at hread
    split at hread
    · obtain ⟨r, hr, rfl⟩ := Option.map_eq_some_iff.mp hread
      exact VoteReply.recovers.fits _ r hr
    · obtain ⟨r, hr, rfl⟩ := Option.map_eq_some_iff.mp hread
      exact AppendReply.recovers.fits _ r hr
    · obtain ⟨r, hr, rfl⟩ := Option.map_eq_some_iff.mp hread
      exact InstallReply.recovers.fits _ r hr
    · obtain ⟨r, hr, rfl⟩ := Option.map_eq_some_iff.mp hread
      exact ChangeReply.recovers.fits _ r hr
    · obtain ⟨r, hr, rfl⟩ := Option.map_eq_some_iff.mp hread
      exact CommandReply.recovers.fits _ r hr
    · obtain ⟨id, hid, rfl⟩ := Option.map_eq_some_iff.mp hread
      exact recovers_hint.fits _ id hid
    · exact absurd hread (by simp)

/-! ## Bytes -/

/-- What is encoded is decoded as it was, if it fits, and what is decoded from any
bytes can be encoded and decoded again. -/
structure RoundTrips {α : Type} (Fits : α → Prop) (encode : α → Bytes)
    (decode? : Bytes → Option α) : Prop where
  decodes : ∀ a, Fits a → decode? (encode a) = some a
  again : ∀ bytes a, decode? bytes = some a → decode? (encode a) = some a

/-- A recovering reader makes a round trip through bytes. -/
theorem Json.Recovers.roundTrips {α : Type} {Fits : α → Prop} {form : α → Json}
    {read : Json → Option α} (h : Recovers Fits form read) :
    RoundTrips Fits (fun a => (form a).print) fun bytes => Json.read? bytes >>= read where
  decodes _ hfits := h.read_bind hfits
  again _ _ hread := h.read_bind (h.fits_of_bind hread)

/-- Every request and every response makes the round trip, and so does all that is
stored. -/
theorem codec_roundTrips :
    RoundTrips (Request.Fits IsWord) Request.encode Request.decode? ∧
      RoundTrips (Response.Fits IsWord) Response.encode Response.decode? ∧
      RoundTrips (Entry.Fits IsWord) Entry.encode Entry.decode? ∧
      RoundTrips (HardState.Fits IsWord) HardState.encode HardState.decode? ∧
      RoundTrips (Snapshot.Fits IsWord) Snapshot.encode Snapshot.decode? ∧
      RoundTrips (ServerChange.Fits IsWord) ServerChange.encode ServerChange.decode? :=
  ⟨Request.recovers.roundTrips, Response.recovers.roundTrips, Entry.recovers.roundTrips,
    HardState.recovers.roundTrips, Snapshot.recovers.roundTrips,
    ServerChange.recovers.roundTrips⟩

example : Request.encode (.addServer 4) =
    Utf8.encode "\x7b\"AddServer\":\x7b\"peer_id\":4\x7d\x7d" := by
  decide +kernel

namespace Network

/-- A request arrives as it was sent. -/
theorem carryRequest_eq {request : Request} (hfits : request.Fits IsWord) :
    carryRequest request = .ok request := by
  have hdecode : Request.decode? request.encode = some request :=
    Request.recovers.roundTrips.decodes request hfits
  rw [carryRequest, hdecode]

/-- A response arrives as it was sent. -/
theorem carryResponse_eq {response : Response} (hfits : response.Fits IsWord) :
    carryResponse response = .ok response := by
  have hdecode : Response.decode? response.encode = some response :=
    Response.recovers.roundTrips.decodes response hfits
  rw [carryResponse, hdecode]

end Network

end Consensus
