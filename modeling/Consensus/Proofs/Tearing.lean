import Consensus.Proofs.Files
import Consensus.Proofs.Json.Prefix

/-!
# An append that is cut short

A stop in the middle of an append leaves the first bytes of the lines that were to be
written.  If the last of them is part of an entry, the log is refused when it is read.  If
it ends a line, the log has the entries before it and goes on from there.

There is one more place for the cut: an entry may be there as a whole without the line
feed after it.  Then the log is read as if nothing had happened, and the next entry is
written on the same line, which no one can read any more.
-/

namespace Consensus

namespace Entry

/-- Part of an entry is no entry. -/
theorem decode?_of_prefix {entry : Entry} {part missing : Bytes}
    (hsplit : entry.encode = part ++ missing) (hmissing : missing ≠ []) :
    decode? part = none := by
  unfold decode?
  rw [Json.read?_of_prefix entry.plain_toJson hsplit hmissing]
  rfl

/-- Two entries on one line are no entry. -/
theorem decode?_encode_append (entry next : Entry) :
    decode? (entry.encode ++ next.encode) = none := by
  have hopens : Json.skipBlank next.encode = next.encode :=
    next.plain_toJson.opens.skipBlank
  have hne : Json.skipBlank next.encode ≠ [] := by
    rw [hopens]
    exact List.ne_nil_of_length_pos next.plain_toJson.opens.length_pos
  have hread : Json.read? (entry.encode ++ next.encode) = none :=
    Json.read?_object_append entry.plain_toJson hne
  unfold decode?
  rw [hread]
  rfl

theorem encode_ne_nil (entry : Entry) : entry.encode ≠ [] :=
  List.cons_ne_nil _ _

end Entry

namespace Directory

variable {d : Directory} {held sent more : List Entry} {entry : Entry} {n : ℕ}
  {bytes rest : Bytes}

/-! ## Lines -/

theorem formatLog_cons (entry : Entry) (entries : List Entry) :
    formatLog (entry :: entries) = entry.encode ++ 0x0a :: formatLog entries := by
  unfold formatLog
  rw [List.flatMap_cons, List.append_assoc]
  rfl

/-- The last line may be without a line feed. -/
theorem splitLines_of_not_mem {line : Bytes} (h : (0x0a : UInt8) ∉ line)
    (hne : line ≠ []) : splitLines line = [line] := by
  induction line with
  | nil => exact absurd rfl hne
  | cons b line ih =>
      obtain ⟨hb, hline⟩ := List.ne_and_not_mem_of_not_mem_cons h
      rw [splitLines, if_neg hb.symm]
      by_cases hnil : line = []
      · rw [hnil]
        rfl
      · rw [ih hline hnil]

/-- A line that begins with a brace and is no entry cannot be read. -/
theorem readLines?_of_undecodable {line : Bytes} (hprintable : Utf8.IsPrintable line)
    (hbrace : line.head? = some 0x7b) (hdecode : Entry.decode? line = none) (number : ℕ)
    (lines : List Bytes) :
    readLines? number (line :: lines) =
      .error (.corrupted (.unreadableLine logFile number)) := by
  obtain ⟨tail, rfl⟩ := List.head?_eq_some_iff.mp hbrace
  have hinked : ((String.ofList ((0x7b :: tail).map fun b =>
      Char.ofNat b.toNat)).toList.all Text.isBlank) = false := by
    rw [String.toList_ofList]
    rfl
  rw [readLines?, Utf8.decode?_of_isPrintable hprintable]
  dsimp only
  rw [hinked, hdecode]
  rfl

/-- The lines of entries are read as those, and then the rest is read. -/
theorem parseLog_append (hfits : ∀ entry ∈ held, entry.Fits IsWord) (rest : Bytes) :
    parseLog (formatLog held ++ rest) =
      (readLines? (held.length + 1) (splitLines rest)).map (held ++ ·) := by
  suffices hlines : ∀ number, readLines? number (splitLines (formatLog held ++ rest)) =
      (readLines? (held.length + number) (splitLines rest)).map (held ++ ·) from hlines 1
  induction held with
  | nil =>
      intro number
      change readLines? number (splitLines rest) = _
      rw [List.length_nil, Nat.zero_add]
      cases readLines? number (splitLines rest) <;> rfl
  | cons entry held ih =>
      intro number
      have hlater := ih fun later hlater => hfits later (List.mem_cons_of_mem entry hlater)
      rw [formatLog_cons, List.append_assoc, List.cons_append,
        splitLines_append_cons (Entry.not_mem_encode entry),
        readLines?_encode (hfits entry List.mem_cons_self), hlater, List.length_cons,
        Nat.add_right_comm, Nat.add_assoc]
      cases readLines? (held.length + (number + 1)) (splitLines rest) <;> rfl

/-- An entry counts without the line feed after it. -/
theorem parseLog_unended (hfits : ∀ entry ∈ held, entry.Fits IsWord)
    (hentry : entry.Fits IsWord) :
    parseLog (formatLog held ++ entry.encode) = .ok (held ++ [entry]) := by
  rw [parseLog_append hfits, splitLines_of_not_mem (Entry.not_mem_encode entry) entry.encode_ne_nil,
    readLines?_encode hentry]
  rfl

/-- Part of an entry is found. -/
theorem parseLog_partial (hfits : ∀ entry ∈ held, entry.Fits IsWord) {part missing : Bytes}
    (hsplit : entry.encode = part ++ missing) (hpart : part ≠ []) (hmissing : missing ≠ []) :
    parseLog (formatLog held ++ part) =
      .error (.corrupted (.unreadableLine logFile (held.length + 1))) := by
  have hprintable := entry.isPrintable_encode
  have hbreak := (Entry.not_mem_encode entry)
  have hbrace : entry.encode.head? = some 0x7b := rfl
  rw [hsplit] at hprintable hbreak hbrace
  rw [List.head?_append_of_ne_nil part hpart] at hbrace
  have hline : splitLines part = [part] :=
    splitLines_of_not_mem (fun hin => hbreak (List.mem_append_left _ hin)) hpart
  rw [parseLog_append hfits, hline, readLines?_of_undecodable
    (Utf8.isPrintable_append.mp hprintable).1 hbrace (Entry.decode?_of_prefix hsplit hmissing)]
  rfl

/-- What comes after an entry without its line feed makes the line unreadable. -/
theorem parseLog_glued (hfits : ∀ entry ∈ held, entry.Fits IsWord) (entry next : Entry)
    (more : List Entry) :
    parseLog (formatLog held ++ entry.encode ++ formatLog (next :: more)) =
      .error (.corrupted (.unreadableLine logFile (held.length + 1))) := by
  have hbreak : (0x0a : UInt8) ∉ entry.encode ++ next.encode := fun hin =>
    (List.mem_append.mp hin).elim (Entry.not_mem_encode entry) (Entry.not_mem_encode next)
  have hprintable := Utf8.isPrintable_append.mpr
    ⟨entry.isPrintable_encode, next.isPrintable_encode⟩
  rw [formatLog_cons, List.append_assoc, ← List.append_assoc entry.encode,
    parseLog_append hfits, splitLines_append_cons hbreak, readLines?_of_undecodable hprintable
    rfl (entry.decode?_encode_append next)]
  rfl

/-! ## Places for a cut -/

/-- Where the first bytes of entries end, and what would have come next. -/
inductive Cut (sent : List Entry) (n : ℕ) : Prop
  /-- At the end of a line, or before the first one. -/
  | between (count : ℕ) (htake : (formatLog sent).take n = formatLog (sent.take count))
      (hnext : (formatLog sent)[n]? ≠ some 0x0a)
  /-- Before the line feed of an entry. -/
  | unended (count : ℕ) (entry : Entry) (hentry : sent[count]? = some entry)
      (htake : (formatLog sent).take n = formatLog (sent.take count) ++ entry.encode)
      (hnext : (formatLog sent)[n]? = some 0x0a)
  /-- Inside an entry. -/
  | within (count : ℕ) (entry : Entry) (part missing : Bytes)
      (hsplit : entry.encode = part ++ missing) (hpart : part ≠ []) (hmissing : missing ≠ [])
      (htake : (formatLog sent).take n = formatLog (sent.take count) ++ part)
      (hnext : (formatLog sent)[n]? ≠ some 0x0a)

/-- A cut further down is the same cut with a line before it. -/
theorem Cut.cons (h : Cut sent n) (entry : Entry) :
    Cut (entry :: sent) (entry.encode.length + 1 + n) := by
  have hlength : (entry.encode ++ [0x0a]).length = entry.encode.length + 1 :=
    List.length_append
  have hline : formatLog (entry :: sent) = entry.encode ++ [0x0a] ++ formatLog sent := rfl
  have htake : (formatLog (entry :: sent)).take (entry.encode.length + 1 + n) =
      entry.encode ++ [0x0a] ++ (formatLog sent).take n := by
    rw [hline, ← hlength, List.take_length_add_append]
  have hnext : (formatLog (entry :: sent))[entry.encode.length + 1 + n]? =
      (formatLog sent)[n]? := by
    rw [hline, List.getElem?_append_right (by omega), hlength, Nat.add_sub_cancel_left]
  cases h with
  | between count htaken hafter =>
      refine .between (count + 1) ?_ (hnext ▸ hafter)
      rw [htake, htaken]
      rfl
  | unended count last hlast htaken hafter =>
      refine .unended (count + 1) last hlast ?_ (hnext ▸ hafter)
      rw [htake, htaken, ← List.append_assoc]
      rfl
  | within count last part missing hsplit hpart hmissing htaken hafter =>
      refine .within (count + 1) last part missing hsplit hpart hmissing ?_ (hnext ▸ hafter)
      rw [htake, htaken, ← List.append_assoc]
      rfl

/-- Every cut is at one of these places. -/
theorem cut (sent : List Entry) (n : ℕ) : Cut sent n := by
  induction sent generalizing n with
  | nil => exact .between 0 List.take_nil (by simp [formatLog])
  | cons entry sent ih =>
      have hline := formatLog_cons entry sent
      rcases lt_trichotomy n entry.encode.length with hlt | rfl | hgt
      · have hnext : (formatLog (entry :: sent))[n]? ≠ some 0x0a := by
          rw [hline, List.getElem?_append_left hlt]
          exact fun hbreak => Entry.not_mem_encode entry (List.mem_of_getElem? hbreak)
        have htake : (formatLog (entry :: sent)).take n = entry.encode.take n := by
          rw [hline, List.take_append_of_le_length hlt.le]
        rcases Nat.eq_zero_or_pos n with rfl | hpos
        · exact .between 0 rfl hnext
        · refine .within 0 entry (entry.encode.take n) (entry.encode.drop n)
            (List.take_append_drop n _).symm ?_ ?_ htake hnext
          · exact List.ne_nil_of_length_pos (by rw [List.length_take]; omega)
          · exact List.ne_nil_of_length_pos (by rw [List.length_drop]; omega)
      · refine .unended 0 entry rfl ?_ ?_
        · rw [hline, List.take_left]
          rfl
        · rw [hline, List.getElem?_append_right le_rfl, Nat.sub_self]
          rfl
      · obtain ⟨m, rfl⟩ : ∃ m, n = entry.encode.length + 1 + m :=
          ⟨n - entry.encode.length - 1, by omega⟩
        exact (ih m).cons entry

/-! ## Going on after a cut -/

theorem loadEntries_of_file (h : d.item? logFile = some (.file bytes)) :
    loadEntries d = parseLog bytes := by
  unfold loadEntries read?
  rw [h]
  rfl

/-- What is written comes after what the log file has. -/
theorem Spells.extend {fresh : Prop} (h : Spells (d.item? logFile) bytes fresh)
    (hfresh : fresh → bytes = []) (more : Bytes) :
    Ensures (Directory.extend logFile more) d
      (fun _ d' => d'.item? logFile = some (.file (bytes ++ more))) fun _ => False := by
  have hold : (d.read? logFile).toOption.join.getD [] = bytes := by
    unfold read?
    rcases h with hitem | ⟨hitem, hnone⟩
    · rw [hitem]
      rfl
    · rw [hitem, hfresh hnone]
      rfl
  refine (ensures_extend h.ne_folder more).imp fun _ d' hitems => ?_
  rw [hitems, if_pos rfl, hold]

/-- Entries that are added are lines at the end of the log file. -/
theorem ensures_append_of_file (h : d.item? logFile = some (.file bytes)) (hne : more ≠ []) :
    Ensures (Storage.append more) d
      (fun _ d' => Directory.loadEntries d' = parseLog (bytes ++ formatLog more))
      fun _ => False := by
  change Ensures (if more = [] then pure () else Directory.extend logFile (formatLog more)) d _ _
  refine Ensures.ite (fun hnil => absurd hnil hne) fun _ => ?_
  have hspells : Spells (d.item? logFile) bytes False := Or.inl h
  exact (hspells.extend False.elim _).imp fun _ d' hitem => loadEntries_of_file hitem

/-- Whatever entries are added next, the log then has them after those found in it. -/
def GoesOn (d : Directory) (found : List Entry) : Prop :=
  ∀ more ≠ [], (∀ entry ∈ more, entry.Fits IsWord) →
    Ensures (Storage.append more) d
      (fun _ d' => Directory.loadEntries d' = .ok (found ++ more)) fun _ => False

/-- Whatever entries are added next, the log cannot be read any more, from the line on
that was the last one. -/
def Spoils (d : Directory) (found : List Entry) : Prop :=
  ∀ more ≠ [], Ensures (Storage.append more) d
    (fun _ d' => Directory.loadEntries d' =
      .error (.corrupted (.unreadableLine logFile found.length))) fun _ => False

theorem not_goesOn_of_spoils (h : d.Spoils held) : ¬ d.GoesOn held := by
  intro hgoes
  have hnoop : ∀ entry ∈ [(⟨0, 0, .noop⟩ : Entry)], entry.Fits IsWord := by
    intro entry hentry
    rw [List.mem_singleton.mp hentry]
    exact ⟨by decide, by decide, fun _ hconfig => by cases hconfig⟩
  have hgood := hgoes _ (List.cons_ne_nil _ _) hnoop
  have hbad := h _ (List.cons_ne_nil ⟨0, 0, .noop⟩ [])
  cases hrun : Storage.append [(⟨0, 0, .noop⟩ : Entry)] d with
  | ok _ d' =>
      have hread := (hgood.ok hrun).symm.trans (hbad.ok hrun)
      cases hread
  | error e d' => exact hgood.error hrun

/-- An append is cut short after any of its bytes.  If the log can be read then, it has
what it had and the first of the new entries, and it goes on from there, unless the first
byte that is missing is a line feed: then the next entry spoils it. -/
theorem Spells.torn_append (hlog : Spells (d.item? logFile) (formatLog held) (held = []))
    (hheld : ∀ entry ∈ held, entry.Fits IsWord) (hsent : ∀ entry ∈ sent, entry.Fits IsWord)
    (n : ℕ) :
    Ensures (Directory.extend logFile ((formatLog sent).take n)) d
      (fun _ torn =>
        (∀ found, Directory.loadEntries torn = .ok found →
          ∃ count, found = held ++ sent.take count) ∧
        ((∀ found, Directory.loadEntries torn = .ok found → torn.GoesOn found) ↔
          (formatLog sent)[n]? ≠ some 0x0a) ∧
        ((formatLog sent)[n]? = some 0x0a →
          ∃ found, Directory.loadEntries torn = .ok found ∧ torn.Spoils found))
      fun _ => False := by
  have hkept : ∀ count, ∀ entry ∈ held ++ sent.take count, entry.Fits IsWord := by
    intro count entry hentry
    rcases List.mem_append.mp hentry with hold | hnew
    · exact hheld entry hold
    · exact hsent entry (List.mem_of_mem_take hnew)
  refine (hlog.extend (fun hnil => hnil ▸ rfl) _).imp fun _ torn hitem => ?_
  have hload := loadEntries_of_file hitem
  cases cut sent n with
  | between count htake hnext =>
      rw [htake, ← formatLog_append] at hitem hload
      rw [parseLog_formatLog (hkept count)] at hload
      have hgoes : ∀ found, Directory.loadEntries torn = .ok found → torn.GoesOn found := by
        intro found hfound more hne hmore
        obtain rfl := Except.ok.inj (hload.symm.trans hfound)
        refine (ensures_append_of_file hitem hne).imp fun _ d' hread => ?_
        rw [hread, ← formatLog_append]
        exact parseLog_formatLog (List.forall_mem_append.mpr ⟨hkept count, hmore⟩)
      refine ⟨fun found hfound => ⟨count, ?_⟩, iff_of_true hgoes hnext, fun h => absurd h hnext⟩
      exact (Except.ok.inj (hload.symm.trans hfound)).symm
  | unended count entry hentry htake hnext =>
      have hlast : sent.take (count + 1) = sent.take count ++ [entry] := by
        rw [List.take_add_one, hentry]
        rfl
      rw [htake, ← List.append_assoc, ← formatLog_append] at hitem hload
      rw [parseLog_unended (hkept count) (hsent entry (List.mem_of_getElem? hentry)),
        List.append_assoc, ← hlast] at hload
      have hspoils : torn.Spoils (held ++ sent.take (count + 1)) := by
        intro more hne
        obtain ⟨next, rest, rfl⟩ := List.exists_cons_of_ne_nil hne
        refine (ensures_append_of_file hitem hne).imp fun _ d' hread => ?_
        have hlines : (held ++ sent.take (count + 1)).length =
            (held ++ sent.take count).length + 1 := by
          rw [hlast, ← List.append_assoc]
          exact List.length_append
        rw [hread, parseLog_glued (hkept count), hlines]
      refine ⟨fun found hfound => ⟨count + 1, ?_⟩, iff_of_false (fun hgoes => ?_)
        (fun hother => hother hnext), fun _ => ⟨_, hload, hspoils⟩⟩
      · exact (Except.ok.inj (hload.symm.trans hfound)).symm
      · exact not_goesOn_of_spoils hspoils (hgoes _ hload)
  | within count entry part missing hsplit hpart hmissing htake hnext =>
      rw [htake, ← List.append_assoc, ← formatLog_append] at hload
      rw [parseLog_partial (hkept count) hsplit hpart hmissing] at hload
      have hrefused : ∀ found, Directory.loadEntries torn ≠ .ok found := by
        intro found hfound
        cases hload.symm.trans hfound
      exact ⟨fun found hfound => absurd hfound (hrefused found),
        iff_of_true (fun found hfound => absurd hfound (hrefused found)) hnext,
        fun h => absurd h hnext⟩

/-- A directory whose log has one entry. -/
def oneLine : Directory := ⟨[(logFile, .file (formatLog [⟨1, 1, .noop⟩]))]⟩

/-- An entry that is put after it. -/
def secondLine : Entry := ⟨1, 2, .noop⟩

/-- The case of a second entry that lacks only its line feed. -/
theorem torn_append_secondLine :
    Ensures (Directory.extend logFile
        ((formatLog [secondLine]).take secondLine.encode.length)) oneLine
      (fun _ torn => ∃ found, Directory.loadEntries torn = .ok found ∧ torn.Spoils found)
      fun _ => False := by
  have hlog : Spells (oneLine.item? logFile) (formatLog [⟨1, 1, .noop⟩])
      ([⟨1, 1, .noop⟩] = ([] : List Entry)) := Or.inl rfl
  have hfits : ∀ index, IsWord index → ∀ entry ∈ [(⟨1, index, .noop⟩ : Entry)],
      entry.Fits IsWord := by
    intro index hindex entry hentry
    have hone : IsWord 1 := by decide
    rw [List.mem_singleton.mp hentry]
    exact ⟨hone, hindex, fun _ hconfig => by cases hconfig⟩
  have hnext : (formatLog [secondLine])[secondLine.encode.length]? = some 0x0a := by
    rw [formatLog_cons, List.getElem?_append_right le_rfl, Nat.sub_self]
    rfl
  refine (Spells.torn_append hlog (hfits 1 (by decide)) (hfits 2 (by decide)) _).imp ?_
  rintro - torn ⟨-, -, hspoils⟩
  exact hspoils hnext

end Directory

end Consensus
