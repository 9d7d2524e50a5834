import Consensus.Proofs.Node.Resuming
import Consensus.Proofs.Node.Sole

/-!
# What a node without peers goes through

Between two events a node that is its only member has stored term and vote, and has
applied what is committed; if it leads, that is all there is.  An election makes it lead
in the next term, a command is answered with the next index, and whenever it stops it can
start again, with a consumer that has nothing.

All of this needs terms and indices that fit in 64 bits, and a disk that never fails.
-/

namespace Consensus

theorem Chronicle.withHardState {id : ℕ} {all : List Entry} {log : Log} {s : Stored}
    (h : Chronicle id all log s) (hard : HardState) :
    Chronicle id all log { s with hardState := hard } := by
  constructor
  · exact ⟨h.entries, h.boundary, h.data⟩
  · exact h.numbered
  · exact h.plain
  · exact h.drop
  · exact h.reach
  · exact h.sound
  · exact h.boundaryTerm
  · exact h.members

namespace Node

variable {σ : Type} {Holds : σ → Stored → Prop} {id : ℕ} {all : List Entry}
  {n n' m : Node σ}

/-- Between two events: the node waits, and nobody waits for it. -/
structure Solitary (Holds : σ → Stored → Prop) (id : ℕ) (all : List Entry)
    (n : Node σ) : Prop extends Sole Holds id all n where
  saved : n.Saved
  idle : n.standing.lastApplied = n.standing.commitIndex
  commandWaiters : n.commandWaiters = ∅
  leads : n.standing.role = .leader → n.standing.lastApplied = all.length

theorem Solitary.withEffects (h : Solitary Holds id all n) (effects : List Effect) :
    Solitary Holds id all { n with effects := effects } where
  toSole := h.toSole.of_same rfl rfl h.peers h.changeWaiters rfl rfl rfl
  saved := h.saved
  idle := h.idle
  commandWaiters := h.commandWaiters
  leads := h.leads

/-- The node waits again when all that it has is committed and applied. -/
theorem Sole.solitary (h : Sole Holds id all n') (hsaved : n.Saved)
    (hpersisted : n'.persisted = n.persisted) (hnone : n'.commandWaiters = ∅)
    (hstanding : n'.standing = { n.standing with
      commitIndex := all.length, lastApplied := all.length }) :
    Solitary Holds id all n' where
  toSole := h
  saved := by
    unfold Saved
    rw [hpersisted, hstanding]
    exact hsaved
  idle := by rw [hstanding]
  commandWaiters := hnone
  leads _ := by rw [hstanding]

/-- The only caller waits for the command that comes next. -/
theorem Sole.attentive {term ticket : ℕ} {payload : Bytes}
    (h : Sole Holds id (all ++ [⟨term, all.length + 1, .command payload⟩]) n)
    (hrole : n.standing.role = .leader) (hterm : term = n.standing.currentTerm)
    (happlied : n.standing.lastApplied = all.length)
    (hwaits : n.commandWaiters =
      (∅ : Table Waiter).insert (all.length + 1) ⟨term, ticket⟩) :
    n.Attentive := by
  have hget : n.log.get? (all.length + 1) =
      some ⟨term, all.length + 1, .command payload⟩ := by
    rw [h.get? (happlied ▸ Nat.lt_succ_self _)]
    exact List.getElem?_concat_length
  constructor
  · rw [hwaits]
    refine ⟨Table.distinct_empty.insert rfl _, fun index w hw => ?_⟩
    rw [Table.get?_insert] at hw
    split at hw
    · next hindex =>
      obtain rfl := Option.some.inj hw
      subst hindex
      exact ⟨hrole, hterm, happlied.trans_lt (Nat.lt_succ_self _), .command payload,
        trivial, hget⟩
    · exact absurd hw (by simp)
  · rw [h.changeWaiters]
    exact lines_empty _ _

variable [Storage σ] (hretains : Storage.Retains Holds IsWord False) (hid : IsWord id)
include hretains hid

/-! ## Parts of handlers -/

/-- Term and vote are stored before anything else happens. -/
theorem Sole.ensures_persist (h : Sole Holds id all n)
    (hterm : IsWord n.standing.currentTerm) :
    Ensures persist n
      (fun _ n' => Sole Holds id all n' ∧ ∃ disk, n' =
        { n with disk := disk, persisted := n.standing.hardState })
      fun _ => False := by
  unfold persist
  rw [Ensures.get_bind_iff]
  refine Ensures.ite (fun _ => ?_) fun hsame => ?_
  · obtain ⟨s, hdisk, hhard, hchronicle⟩ := h.tells
    have hfits : n.standing.hardState.Fits IsWord := by
      refine ⟨hterm, fun other hother => ?_⟩
      rw [h.vote other hother]
      exact hid
    have hsaves := hretains.saveHardState _ hfits n.disk s hdisk
    refine Ensures.bind (Ensures.onDisk (fun _ disk hrun => ?_)
      fun e disk hrun => hsaves.error hrun)
    refine ⟨?_, disk, rfl⟩
    constructor
    · exact h.self
    · exact h.membership
    · exact h.peers
    · exact h.changeWaiters
    · exact h.vote
    · exact ⟨_, hsaves.ok hrun, rfl, hchronicle.withHardState _⟩
    · exact h.within
    · exact h.boundary_le
    · exact h.applied_le
    · exact h.record
  · refine ⟨h, n.disk, ?_⟩
    rw [not_not.mp hsame]

/-- Without callers, everything that is committed is applied. -/
theorem Sole.ensures_applyCommitted (h : Sole Holds id all n)
    (hnone : n.commandWaiters = ∅) (hcommit : n.standing.commitIndex = all.length)
    (hterm : IsWord n.standing.currentTerm) (hlength : IsWord all.length) :
    Ensures applyCommitted n
      (fun _ n' => Sole Holds id all n' ∧ n'.persisted = n.persisted ∧
        n'.commandWaiters = ∅ ∧ n'.standing =
          { n.standing with lastApplied := all.length })
      fun _ => False := by
  have happlied := h.applied_le
  unfold applyCommitted
  rw [Ensures.get_bind_iff, hcommit]
  refine (h.ensures_applyMany hnone (by omega)).andThen ?_
  rintro - m ⟨hm, hpersisted, hnone', hstanding⟩
  rw [Nat.add_sub_cancel' happlied] at hstanding
  have hword : IsWord m.standing.currentTerm := by
    rw [hstanding]
    exact hterm
  refine (hm.ensures_conclude hretains hid hword hlength).imp ?_
  rintro - n' ⟨hn', j, rfl⟩
  exact ⟨hn', hpersisted, hnone', hstanding⟩

/-- A leader commits and applies all that it has, and then waits. -/
theorem Sole.ensures_spread (h : Sole Holds id all n) (hsaved : n.Saved)
    (hnone : n.commandWaiters = ∅) (hrole : n.standing.role = .leader)
    (hmore : n.standing.commitIndex < all.length)
    (hlast : n.log.lastTerm = n.standing.currentTerm)
    (hterm : IsWord n.standing.currentTerm) (hlength : IsWord all.length) :
    Ensures (advanceCommit >>= fun _ => replicateAll) n
      (fun _ n' => Solitary Holds id all n' ∧ n'.standing.role = .leader ∧
        n'.standing.currentTerm = n.standing.currentTerm)
      fun _ => False := by
  have hcommits : Sole Holds id all
      (n.mapStanding fun s => { s with commitIndex := all.length }) :=
    h.stands h.vote le_rfl rfl
  apply Ensures.bind
  apply h.ensures_advanceCommit hrole hmore hlast
  refine (hcommits.ensures_applyCommitted hretains hid hnone rfl hterm hlength).imp ?_
  rintro - m ⟨hm, hpersisted, hnone', hstanding⟩
  have hwaits := hm.solitary hsaved hpersisted hnone' hstanding
  refine Ensures.of_ok hm.replicateAll_eq ⟨hwaits, ?_, ?_⟩
  · rw [hstanding]
    exact hrole
  · rw [hstanding]
    rfl

/-! ## Elections -/

/-- A node that begins to lead has everything applied in the end, its own first entry
included. -/
theorem Sole.ensures_becomeLeader (h : Sole Holds id all n) (hsaved : n.Saved)
    (hnone : n.commandWaiters = ∅) (hcommit : n.standing.commitIndex ≤ all.length)
    (hterm : IsWord n.standing.currentTerm) (hlength : IsWord (all.length + 1)) :
    Ensures becomeLeader n
      (fun _ n' => ∃ entry : Entry, entry.call? = none ∧
        Solitary Holds id (all ++ [entry]) n' ∧ n'.standing.role = .leader ∧
        n'.standing.currentTerm = n.standing.currentTerm)
      fun _ => False := by
  have hcrowned := h.crowned
  have hstanding := n.standing_crowned
  have hword : IsWord n.crowned.standing.currentTerm := by
    rw [hstanding]
    exact hterm
  unfold becomeLeader
  rw [Ensures.modify_bind_iff, Ensures.get_bind_iff]
  have hplain : Entry.config? ⟨n.crowned.standing.currentTerm, all.length + 1, .noop⟩ =
      none := rfl
  refine (hcrowned.ensures_append hretains hplain hword hlength).andThen ?_
  rintro index m ⟨rfl, hm, hlast, j, rfl⟩
  have hall : (all ++ [(⟨n.crowned.standing.currentTerm, all.length + 1, .noop⟩ :
      Entry)]).length = all.length + 1 := List.length_append
  refine (hm.ensures_spread hretains hid ?_ hnone ?_ ?_ hlast hword ?_).imp ?_
  · change n.crowned.persisted = n.crowned.standing.hardState
    rw [n.aside_crowned.persisted, hstanding]
    exact hsaved
  · change n.crowned.standing.role = .leader
    rw [hstanding]
    rfl
  · change n.crowned.standing.commitIndex < _
    rw [hall, hstanding]
    exact Nat.lt_succ_of_le hcommit
  · rw [hall]
    exact hlength
  · rintro - n' ⟨hn', hrole, hsame⟩
    refine ⟨_, rfl, hn', hrole, hsame.trans ?_⟩
    change n.crowned.standing.currentTerm = _
    rw [hstanding]
    rfl

omit hretains hid in
omit [Storage σ] in
/-- The timer starts anew before an election, and whoever has waited for a leader is gone. -/
theorem Sole.stood (h : Sole Holds id all n) (hsaved : n.Saved)
    (hnone : n.commandWaiters = ∅) (before : Role) :
    Sole Holds id all ((n.afterRoleChange before).emit .resetElectionTimer) ∧
      ((n.afterRoleChange before).emit .resetElectionTimer).Saved ∧
      ((n.afterRoleChange before).emit .resetElectionTimer).commandWaiters = ∅ ∧
      ((n.afterRoleChange before).emit .resetElectionTimer).standing = n.standing := by
  have hturned := h.afterRoleChange before
  have haside := aside_afterRoleChange n before
  have hwaiters := commandWaiters_afterRoleChange n before
  rw [hnone, ite_self] at hwaiters
  refine ⟨?_, ?_, hwaiters, haside.standing⟩
  · exact hturned.of_same rfl rfl hturned.peers hturned.changeWaiters rfl rfl rfl
  · exact haside.persisted.trans (hsaved.trans (congrArg _ haside.standing.symm))

/-- Whoever stands alone is elected, in the next term. -/
theorem Solitary.ensures_startElection (h : Solitary Holds id all n)
    (hterm : IsWord (n.standing.currentTerm + 1)) (hlength : IsWord (all.length + 1)) :
    Ensures startElection n
      (fun _ n' => ∃ entry : Entry, entry.call? = none ∧
        Solitary Holds id (all ++ [entry]) n' ∧ n'.standing.role = .leader ∧
        n'.standing.currentTerm = n.standing.currentTerm + 1)
      fun _ => False := by
  have hstands : Sole Holds id all (n.mapStanding (·.becomeCandidate n.self)) := by
    refine h.stands (fun other hother => ?_) (Nat.le_succ _) rfl
    rw [← Option.some.inj hother]
    exact h.self
  unfold startElection
  rw [Ensures.get_bind_iff]
  refine Ensures.ite (fun hout => absurd h.member hout) fun _ => ?_
  dsimp only
  rw [Ensures.modify_bind_iff]
  refine (hstands.ensures_persist hretains hid hterm).andThen ?_
  rintro - m ⟨hm, disk, hmeq⟩
  have hstanding : m.standing = n.standing.becomeCandidate n.self := by
    rw [hmeq]
    rfl
  have hsaved : m.Saved := by
    rw [hmeq]
    rfl
  have hnone : m.commandWaiters = ∅ := by
    rw [hmeq]
    exact h.commandWaiters
  obtain ⟨hk, hsaved', hnone', hstanding'⟩ := hm.stood hsaved hnone n.standing.role
  rw [Ensures.modify_bind_iff]
  generalize (m.afterRoleChange n.standing.role).emit .resetElectionTimer = k at *
  rw [hstanding] at hstanding'
  have hquorum : k.membership.committed.hasQuorum k.standing.votes = true := by
    rw [hk.membership, hstanding', h.self]
    exact NodeSet.hasQuorum_single id
  have hcommit : k.standing.commitIndex ≤ all.length := by
    rw [hstanding']
    exact h.idle.symm.le.trans h.applied_le
  have hword : IsWord k.standing.currentTerm := by
    rw [hstanding']
    exact hterm
  rw [Ensures.get_bind_iff]
  refine Ensures.ite (fun _ => ?_) fun hfew => absurd hquorum hfew
  have hleads := hk.ensures_becomeLeader hretains hid hsaved' hnone' hcommit hword hlength
  rw [hstanding'] at hleads
  exact hleads

/-- Nothing else comes of an election timeout. -/
theorem Solitary.ensures_handleElectionTimeout (h : Solitary Holds id all n)
    (hrole : n.standing.role ≠ .leader) (hterm : IsWord (n.standing.currentTerm + 1))
    (hlength : IsWord (all.length + 1)) :
    Ensures handleElectionTimeout n
      (fun _ n' => ∃ entry : Entry, entry.call? = none ∧
        Solitary Holds id (all ++ [entry]) n' ∧ n'.standing.role = .leader ∧
        n'.standing.currentTerm = n.standing.currentTerm + 1)
      fun _ => False := by
  unfold handleElectionTimeout
  rw [Ensures.get_bind_iff]
  refine Ensures.ite (fun hleads => absurd hleads hrole) fun _ => ?_
  refine Ensures.ite (fun hout => absurd h.member hout) fun _ => ?_
  exact h.ensures_startElection hretains hid hterm hlength

/-! ## Commands -/

omit hretains hid in
/-- The command at the end of the log is the next one to be applied, and its caller is
told so. -/
theorem Sole.told {ticket : ℕ} {payload : Bytes} {entry : Entry}
    (h : Sole Holds id (all ++ [entry]) n)
    (hentry : entry = ⟨n.standing.currentTerm, all.length + 1, .command payload⟩)
    (hrole : n.standing.role = .leader) (happlied : n.standing.lastApplied = all.length)
    (hwaits : n.commandWaiters =
      (∅ : Table Waiter).insert (all.length + 1) ⟨n.standing.currentTerm, ticket⟩) :
    applyNext n = .ok () (n.applyEntry entry (all.length + 1)) ∧
      Sole Holds id (all ++ [entry]) (n.applyEntry entry (all.length + 1)) ∧
      (n.applyEntry entry (all.length + 1)).commandWaiters = ∅ ∧
      (n.applyEntry entry (all.length + 1)).effects =
        n.effects ++ [.consume (all.length + 1) payload] ++
          [.answer ticket (.applied (all.length + 1))] := by
  have hfound : (all ++ [entry])[n.standing.lastApplied]? = some entry := by
    rw [happlied]
    exact List.getElem?_concat_length
  have hget : n.log.get? (n.standing.lastApplied + 1) = some entry :=
    (h.get? (Nat.lt_succ_self _)).trans hfound
  have hw : n.commandWaiters.get? (n.standing.lastApplied + 1) =
      some ⟨n.standing.currentTerm, ticket⟩ := by
    rw [hwaits, happlied, Table.get?_insert, if_pos rfl]
  have hnext := h.applyNext_eq hfound
  have hmoved := h.applied hfound
  obtain ⟨hwaiters, -⟩ := n.applyEntry_waiters entry (n.standing.lastApplied + 1)
  subst hentry
  have hattentive := h.attentive hrole rfl happlied hwaits
  obtain ⟨told, htold, heffects⟩ := hattentive.effects_applied hget hw
  obtain rfl := Payload.command.inj (congrArg Entry.payload htold)
  rw [happlied] at hnext hmoved hwaiters heffects
  refine ⟨hnext, hmoved, ?_, heffects⟩
  rw [hwaiters, hwaits]
  exact Table.erase_insert_empty _ _

/-- Once it is committed, the command at the end of the log is answered. -/
theorem Sole.ensures_answer {ticket : ℕ} {payload : Bytes}
    (h : Sole Holds id
      (all ++ [⟨n.standing.currentTerm, all.length + 1, .command payload⟩]) n)
    (hrole : n.standing.role = .leader) (happlied : n.standing.lastApplied = all.length)
    (hcommit : n.standing.commitIndex = all.length + 1)
    (hwaits : n.commandWaiters =
      (∅ : Table Waiter).insert (all.length + 1) ⟨n.standing.currentTerm, ticket⟩)
    (hterm : IsWord n.standing.currentTerm) (hlength : IsWord (all.length + 1)) :
    Ensures applyCommitted n
      (fun _ n' => Sole Holds id
          (all ++ [⟨n.standing.currentTerm, all.length + 1, .command payload⟩]) n' ∧
        n'.persisted = n.persisted ∧ n'.commandWaiters = ∅ ∧
        n'.standing = { n.standing with lastApplied := all.length + 1 } ∧
        n'.effects = n.effects ++ [.consume (all.length + 1) payload] ++
          [.answer ticket (.applied (all.length + 1))] ++
          [.announce (all.length + 1)])
      fun _ => False := by
  let entry : Entry := ⟨n.standing.currentTerm, all.length + 1, .command payload⟩
  obtain ⟨hnext, hmoved, hnone, heffects⟩ := h.told rfl hrole happlied hwaits
  have henacted := enacted_applyEntry n entry (all.length + 1)
  have hcount : n.standing.commitIndex - n.standing.lastApplied = 1 := by omega
  generalize n.applyEntry entry (all.length + 1) = m at *
  have hstanding := henacted.standing
  have hword : IsWord m.standing.currentTerm := by
    rw [hstanding]
    exact hterm
  have hconclude := hmoved.ensures_conclude hretains hid hword
    (List.length_append.symm ▸ hlength)
  unfold applyCommitted
  rw [Ensures.get_bind_iff, hcount]
  apply Ensures.bind
  refine Ensures.bind_of_ok hnext (hconclude.imp ?_)
  rintro - n' ⟨hn', j, rfl⟩
  refine ⟨hn', henacted.persisted, hnone, hstanding, ?_⟩
  change m.effects ++ [.announce m.standing.lastApplied] = _
  rw [heffects, hstanding]

/-- A command that a leader is given is in the log then, at the next index; it is
applied, and the caller is told so. -/
theorem Solitary.ensures_handleCommand (h : Solitary Holds id all n)
    (hrole : n.standing.role = .leader) (hterm : IsWord n.standing.currentTerm)
    (hlength : IsWord (all.length + 1)) (ticket : ℕ) (payload : Bytes) :
    Ensures (handleCommand ticket payload) n
      (fun _ n' => Solitary Holds id
          (all ++ [⟨n.standing.currentTerm, all.length + 1, .command payload⟩]) n' ∧
        n'.standing.role = .leader ∧
        n'.standing.currentTerm = n.standing.currentTerm ∧
        n'.effects = n.effects ++ [.consume (all.length + 1) payload] ++
          [.answer ticket (.applied (all.length + 1))] ++
          [.announce (all.length + 1)])
      fun _ => False := by
  have happlied := h.leads hrole
  have hplain : Entry.config? ⟨n.standing.currentTerm, all.length + 1,
      .command payload⟩ = none := rfl
  unfold handleCommand
  rw [Ensures.get_bind_iff]
  refine Ensures.ite (fun hnot => absurd hrole hnot) fun _ => ?_
  refine (h.ensures_append hretains hplain hterm hlength).andThen ?_
  rintro index m ⟨rfl, hm, hlast, j, rfl⟩
  rw [Ensures.modify_bind_iff]
  have hall : (all ++ [(⟨n.standing.currentTerm, all.length + 1, .command payload⟩ :
      Entry)]).length = all.length + 1 := List.length_append
  let asked : Node σ :=
    { n with
      toJournal := j
      commandWaiters := n.commandWaiters.insert (all.length + 1)
        ⟨n.standing.currentTerm, ticket⟩ }
  let agreed := asked.mapStanding fun s => { s with commitIndex := all.length + 1 }
  have hasked : Sole Holds id
      (all ++ [⟨n.standing.currentTerm, all.length + 1, .command payload⟩]) asked :=
    hm.of_same rfl rfl h.peers h.changeWaiters rfl rfl rfl
  have hagreed : Sole Holds id
      (all ++ [⟨agreed.standing.currentTerm, all.length + 1, .command payload⟩])
      agreed :=
    hasked.stands h.vote le_rfl rfl
  have hwaits : agreed.commandWaiters =
      (∅ : Table Waiter).insert (all.length + 1) ⟨agreed.standing.currentTerm, ticket⟩ :=
    congrArg (fun t : Table Waiter => t.insert (all.length + 1)
      ⟨n.standing.currentTerm, ticket⟩) h.commandWaiters
  have hmore : n.standing.commitIndex < (all ++ [(⟨n.standing.currentTerm,
      all.length + 1, .command payload⟩ : Entry)]).length := by
    rw [hall, ← h.idle, happlied]
    exact Nat.lt_succ_self _
  have hanswer := hagreed.ensures_answer hretains hid hrole happlied rfl hwaits hterm
    hlength
  apply Ensures.bind
  apply hasked.ensures_advanceCommit hrole hmore hlast
  rw [hall]
  refine hanswer.imp ?_
  rintro - n' ⟨hn', hpersisted, hnone, hstanding, heffects⟩
  have hsolitary := hn'.solitary h.saved hpersisted hnone (by
    rw [List.length_append]
    exact hstanding)
  refine Ensures.of_ok hn'.replicateAll_eq ⟨hsolitary, ?_, ?_, heffects⟩
  · rw [hstanding]
    exact hrole
  · rw [hstanding]
    rfl

/-! ## Starting again -/

omit hid in
/-- A node that starts over a disk that tells a list of entries goes on with it.  It has
applied what its snapshot covers. -/
theorem ensures_recover_of_tells {hard : HardState} {j : Journal σ}
    (htells : j.Tells Holds id all hard)
    (hvote : ∀ other, hard.votedFor = some other → other = id)
    (hwithin : j.log.Within hard.currentTerm) {settings : Settings}
    (hvalid : settings.validate = .ok ()) (hself : settings.nodeId = id)
    (hmembers : NodeSet.ofList settings.members = .single id)
    (hlength : IsWord all.length) :
    Ensures (recover settings) ⟨j.disk, {}⟩
      (fun m _ => Solitary Holds id all m ∧ m.standing.role = .follower ∧
        m.standing.currentTerm = hard.currentTerm ∧ m.effects = [])
      fun _ => False := by
  have hlog := htells.load_eq hretains
  have hlast := htells.lastIndex_eq
  have htold := htells
  obtain ⟨s, hdisk, hhard, hchronicle⟩ := htold
  have hreadHard : Durable.onDisk (Storage.inspect Storage.loadHardState) ⟨j.disk, {}⟩ =
      .ok hard ⟨j.disk, {}⟩ := by
    rw [← hhard]
    exact Durable.onDisk_inspect (hretains.loadHardState _ _ hdisk)
  have hreadSnapshot : Durable.onDisk (Storage.inspect Storage.loadSnapshot)
      ⟨j.disk, {}⟩ = .ok s.snapshot ⟨j.disk, {}⟩ :=
    Durable.onDisk_inspect (hretains.loadSnapshot _ _ hdisk)
  rw [← hchronicle.boundary, ← hchronicle.boundaryTerm] at hlog
  have hreadLog : Durable.onDisk (Log.load s.boundary s.boundaryTerm) ⟨j.disk, {}⟩ =
      .ok j.log ⟨j.disk, {}⟩ := onPart_ok (a := j.log) (t := j.disk) hlog
  unfold recover
  rw [hvalid]
  refine Ensures.bind_of_ok hreadHard (Ensures.bind_of_ok hreadSnapshot
    (Ensures.bind_of_ok hreadLog ?_))
  refine Ensures.ite (fun hbehind => absurd (Log.lastTerm_le hwithin) hbehind.not_ge)
    fun _ => ?_
  refine (hchronicle.ensures_catchUp hlength j.disk).andThen ?_
  rintro applied d ⟨rfl, hkept, hrecord⟩
  have hreach := hchronicle.reach
  refine Ensures.ite (fun hbeyond => absurd (hlast ▸ hreach) hbeyond.not_ge) fun _ => ?_
  have hmembership := hchronicle.recover_eq hmembers j.log.snapshotIndex
  refine ⟨⟨?_, ?_, rfl, rfl, fun hleads => absurd hleads (by simp [Standing.restore])⟩,
    rfl, rfl, rfl⟩
  · constructor
    · exact hself
    · exact hmembership
    · rfl
    · rfl
    · exact hvote
    · change (⟨j.log, d.disk⟩ : Journal σ).Tells Holds id all hard
      rw [hkept]
      exact htells
    · exact hwithin
    · exact le_rfl
    · exact hreach
    · exact hrecord
  · rfl

omit hid in
/-- Whenever the node stops it can start again. -/
theorem Solitary.ensures_recover (h : Solitary Holds id all n) {settings : Settings}
    (hvalid : settings.validate = .ok ()) (hself : settings.nodeId = id)
    (hmembers : NodeSet.ofList settings.members = .single id)
    (hlength : IsWord all.length) :
    Ensures (recover settings) ⟨n.disk, {}⟩
      (fun m _ => Solitary Holds id all m ∧ m.standing.role = .follower ∧
        m.standing.currentTerm = n.standing.currentTerm ∧ m.effects = [])
      fun _ => False := by
  have htells := h.tells
  rw [h.saved] at htells
  exact ensures_recover_of_tells hretains htells h.vote h.within hvalid hself hmembers
    hlength

omit hid in
/-- On a fresh disk the node starts with nothing. -/
theorem ensures_recover_empty {disk : σ} (hdisk : Holds disk {}) {settings : Settings}
    (hvalid : settings.validate = .ok ()) (hself : settings.nodeId = id)
    (hmembers : NodeSet.ofList settings.members = .single id) :
    Ensures (recover settings) ⟨disk, {}⟩
      (fun m _ => Solitary Holds id [] m ∧ m.standing.role = .follower ∧
        m.standing.currentTerm = 0 ∧ m.effects = [])
      fun _ => False := by
  have htells : (⟨⟨[], 0, 0⟩, disk⟩ : Journal σ).Tells Holds id [] {} :=
    ⟨{}, hdisk, rfl, chronicle_empty id⟩
  refine ensures_recover_of_tells hretains htells (fun _ hnone => absurd hnone (by simp))
    ⟨le_rfl, fun _ hentry => absurd hentry List.not_mem_nil⟩ hvalid hself hmembers
    (by decide)

end Node

end Consensus
