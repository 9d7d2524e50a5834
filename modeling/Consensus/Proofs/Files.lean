import Consensus.Proofs.Codec
import Consensus.Storage.Directory

/-!
# A disk of files retains what is written

Each file spells the value that was last written to it, or there is no file yet and
nothing was written.  No printed entry has a line break in it or begins with a blank,
so the lines of the log are read as the entries that were put there.
-/

namespace Consensus.Directory

variable {d : Directory} {name : String}

/-! ## Names -/

theorem lookup_filter_ne {κ α : Type} [BEq κ] [LawfulBEq κ] [DecidableEq κ]
    (items : List (κ × α)) (name other : κ) :
    (items.filter fun i => i.1 != name).lookup other =
      if other = name then none else items.lookup other := by
  induction items with
  | nil => exact (ite_self none).symm
  | cons item items ih =>
      obtain ⟨key, a⟩ := item
      rcases eq_or_ne key name with rfl | hkey
      · rw [List.filter_cons_of_neg (by simp), ih]
        rcases eq_or_ne other key with rfl | hother
        · rw [if_pos rfl, if_pos rfl]
        · rw [if_neg hother, if_neg hother, List.lookup_cons,
            beq_eq_false_iff_ne.mpr hother]
      · rw [List.filter_cons_of_pos (by simpa using hkey), List.lookup_cons, ih,
          List.lookup_cons]
        rcases eq_or_ne other key with rfl | hother
        · rw [if_neg hkey, if_neg hkey, beq_self_eq_true]
        · rw [beq_eq_false_iff_ne.mpr hother]

theorem item?_erase (d : Directory) (name other : String) :
    (d.erase name).item? other = if other = name then none else d.item? other :=
  lookup_filter_ne d.items name other

theorem item?_put (d : Directory) (name : String) (item : DirectoryItem)
    (other : String) :
    (d.put name item).item? other =
      if other = name then some item else d.item? other := by
  have hput : (d.put name item).item? other =
      ((d.erase name).item? other).or ([(name, item)].lookup other) :=
    List.lookup_append
  rw [hput, item?_erase]
  rcases eq_or_ne other name with rfl | hother
  · rw [if_pos rfl, if_pos rfl, List.lookup_cons, beq_self_eq_true]
    rfl
  · rw [if_neg hother, if_neg hother, List.lookup_cons,
      beq_eq_false_iff_ne.mpr hother]
    exact Option.or_none

/-! ## Reading a file -/

section

variable {α : Type} {decode : Bytes → Option α}

theorem loadValue_of_none (h : d.item? name = none) :
    loadValue name decode d = .ok none := by
  unfold loadValue read?
  rw [h]
  rfl

theorem loadValue_of_file {bytes : Bytes} {a : α}
    (h : d.item? name = some (.file bytes)) (hdecode : decode bytes = some a) :
    loadValue name decode d = .ok (some a) := by
  have hread : d.read? name = .ok (some bytes) := by
    unfold read?
    rw [h]
  unfold loadValue
  rw [hread]
  simp only [bind, Except.bind, hdecode]
  rfl

end

/-! ## Writing a file -/

/-- The new contents have the name, and the temporary file is gone. -/
theorem ensures_replace (htemporary : d.item? (temporary name) ≠ some .folder)
    (hname : d.item? name ≠ some .folder) (bytes : Bytes) :
    Ensures (replace name bytes) d
      (fun _ d' => ∀ other, d'.item? other =
        if other = name then some (.file bytes)
        else if other = temporary name then none
        else d.item? other)
      fun _ => False := by
  unfold replace
  rw [Ensures.get_bind_iff, if_neg htemporary]
  apply Ensures.bind
  refine Ensures.of_ok (a := ()) rfl ?_
  dsimp only
  rw [if_neg hname]
  refine Ensures.of_ok (a := ()) rfl fun other => ?_
  rw [item?_put, item?_erase, item?_put]
  split_ifs <;> rfl

/-- What is added comes after what the file had. -/
theorem ensures_extend (hname : d.item? name ≠ some .folder) (bytes : Bytes) :
    Ensures (extend name bytes) d
      (fun _ d' => ∀ other, d'.item? other =
        if other = name then
          some (.file ((d.read? name).toOption.join.getD [] ++ bytes))
        else d.item? other)
      fun _ => False := by
  unfold extend read?
  rw [Ensures.get_bind_iff]
  cases hitem : d.item? name with
  | none => exact Ensures.of_ok rfl fun other => item?_put d name _ other
  | some item =>
      cases item with
      | folder => exact absurd hitem hname
      | file old => exact Ensures.of_ok rfl fun other => item?_put d name _ other

/-! ## The lines of the log -/

/-- A line ends where the first line feed stands. -/
theorem splitLines_append_cons {line : Bytes} (h : (0x0a : UInt8) ∉ line)
    (rest : Bytes) :
    splitLines (line ++ 0x0a :: rest) = line :: splitLines rest := by
  induction line with
  | nil => rfl
  | cons b line ih =>
      obtain ⟨hb, hline⟩ := List.ne_and_not_mem_of_not_mem_cons h
      rw [List.cons_append, splitLines, if_neg hb.symm, ih hline]

theorem Entry.not_mem_encode (entry : Entry) : (0x0a : UInt8) ∉ entry.encode := by
  intro hbreak
  have hlow := (entry.isPrintable_encode _ hbreak).1
  exact absurd hlow (by decide)

/-- The line of an entry is read as that entry. -/
theorem readLines?_encode {entry : Entry} (h : entry.Fits IsWord) (number : ℕ)
    (lines : List Bytes) :
    readLines? number (entry.encode :: lines) =
      (readLines? (number + 1) lines).map (entry :: ·) := by
  have hinked : ((String.ofList (entry.encode.map fun b => Char.ofNat b.toNat)).toList.all
      Text.isBlank) = false := by
    rw [String.toList_ofList]
    rfl
  rw [readLines?, Utf8.decode?_of_isPrintable entry.isPrintable_encode]
  dsimp only
  rw [hinked, Entry.decode?_encode h]
  rfl

/-- A log file gives back the entries that were put in it. -/
theorem parseLog_formatLog {entries : List Entry}
    (h : ∀ entry ∈ entries, entry.Fits IsWord) :
    parseLog (formatLog entries) = .ok entries := by
  suffices hlines : ∀ number, readLines? number (splitLines (formatLog entries)) =
      .ok entries from hlines 1
  induction entries with
  | nil => exact fun _ => rfl
  | cons entry entries ih =>
      intro number
      have hline : formatLog (entry :: entries) =
          entry.encode ++ 0x0a :: formatLog entries := by
        unfold formatLog
        rw [List.flatMap_cons, List.append_assoc]
        rfl
      rw [hline, splitLines_append_cons (Entry.not_mem_encode entry),
        readLines?_encode (h entry List.mem_cons_self),
        ih fun later hlater => h later (List.mem_cons_of_mem entry hlater)]
      rfl

theorem formatLog_append (entries more : List Entry) :
    formatLog (entries ++ more) = formatLog entries ++ formatLog more :=
  List.flatMap_append

/-! ## What the files hold -/

/-- The names of the files. -/
def files : List String := [hardStateFile, logFile, snapshotFile]

theorem temporary_ne {name other : String} (hname : name ∈ files)
    (hother : other ∈ files) : temporary name ≠ other := by
  have hall : ∀ name ∈ files, ∀ other ∈ files, temporary name ≠ other := by decide
  exact hall name hname other hother

/-- The file has these bytes; there may be none before anything was written. -/
def Spells (item : Option DirectoryItem) (bytes : Bytes) (fresh : Prop) : Prop :=
  item = some (.file bytes) ∨ item = none ∧ fresh

theorem Spells.ne_folder {item : Option DirectoryItem} {bytes : Bytes} {fresh : Prop}
    (h : Spells item bytes fresh) : item ≠ some .folder := by
  rintro rfl
  rcases h with h | h
  · injection h with hitem
    injection hitem
  · injection h.1

/-- What the files of a directory hold.  The numbers in it fit, and no folder stands
where a file is prepared. -/
structure Holds (d : Directory) (s : Stored) : Prop where
  hardState : Spells (d.item? hardStateFile) s.hardState.encode (s.hardState = {})
  log : Spells (d.item? logFile) (formatLog s.entries) (s.entries = [])
  snapshot : d.item? snapshotFile = s.snapshot.map fun snapshot => .file snapshot.encode
  unblocked : ∀ name ∈ files, d.item? (temporary name) ≠ some .folder
  fits_hardState : s.hardState.Fits IsWord
  fits_entries : ∀ entry ∈ s.entries, entry.Fits IsWord
  fits_snapshot : ∀ snapshot, s.snapshot = some snapshot → snapshot.Fits IsWord

variable {s : Stored}

/-- An empty directory holds what a fresh disk holds. -/
theorem holds_empty : Holds {} {} where
  hardState := .inr ⟨rfl, rfl⟩
  log := .inr ⟨rfl, rfl⟩
  snapshot := rfl
  unblocked := fun _ _ h => by injection h
  fits_hardState := ⟨by decide, fun _ h => by injection h⟩
  fits_entries := fun _ h => absurd h List.not_mem_nil
  fits_snapshot := fun _ h => by injection h

namespace Holds

theorem ne_folder (h : d.Holds s) (hname : name ∈ files) :
    d.item? name ≠ some .folder := by
  simp only [files, List.mem_cons, List.not_mem_nil, or_false] at hname
  rcases hname with rfl | rfl | rfl
  · exact h.hardState.ne_folder
  · exact h.log.ne_folder
  · rw [h.snapshot]
    intro hfolder
    obtain ⟨snapshot, -, hsnapshot⟩ := Option.map_eq_some_iff.mp hfolder
    injection hsnapshot

theorem loadHardState (h : d.Holds s) :
    Storage.loadHardState d = .ok s.hardState := by
  change (loadValue hardStateFile HardState.decode? d).map (·.getD {}) = _
  rcases h.hardState with hitem | ⟨hitem, hfresh⟩
  · rw [loadValue_of_file hitem (HardState.decode?_encode h.fits_hardState)]
    rfl
  · rw [loadValue_of_none hitem, hfresh]
    rfl

theorem loadEntries (h : d.Holds s) : Directory.loadEntries d = .ok s.entries := by
  unfold Directory.loadEntries read?
  rcases h.log with hitem | ⟨hitem, hfresh⟩
  · rw [hitem]
    exact parseLog_formatLog h.fits_entries
  · rw [hitem, hfresh]
    rfl

theorem loadSnapshot (h : d.Holds s) : Storage.loadSnapshot d = .ok s.snapshot := by
  have hitem := h.snapshot
  cases hsnapshot : s.snapshot with
  | none =>
      rw [hsnapshot] at hitem
      exact loadValue_of_none hitem
  | some snapshot =>
      rw [hsnapshot] at hitem
      exact loadValue_of_file hitem
        (Snapshot.decode?_encode (h.fits_snapshot snapshot hsnapshot))

/-- Replacing one of the files leaves the others. -/
theorem replace (h : d.Holds s) (hname : name ∈ files) (bytes : Bytes) :
    Ensures (Directory.replace name bytes) d
      (fun _ d' => d'.item? name = some (.file bytes) ∧
        (∀ other ∈ files, other ≠ name → d'.item? other = d.item? other) ∧
        ∀ other ∈ files, d'.item? (temporary other) ≠ some .folder)
      fun _ => False := by
  refine (ensures_replace (h.unblocked name hname) (h.ne_folder hname) bytes).imp ?_
  intro _ d' hitems
  refine ⟨by rw [hitems, if_pos rfl], ?_, ?_⟩
  · intro other hother hne
    rw [hitems, if_neg hne, if_neg (temporary_ne hname hother).symm]
  · intro other hother
    rw [hitems, if_neg (temporary_ne hother hname)]
    split_ifs
    · intro hfolder
      injection hfolder
    · exact h.unblocked other hother

/-- Adding to the log leaves the other files. -/
theorem extend (h : d.Holds s) {entries : List Entry}
    (hfits : ∀ entry ∈ entries, entry.Fits IsWord) :
    Ensures (Directory.extend logFile (formatLog entries)) d
      (fun _ d' => d'.Holds (s.append entries)) fun _ => False := by
  have hold : (d.read? logFile).toOption.join.getD [] = formatLog s.entries := by
    unfold read?
    rcases h.log with hitem | ⟨hitem, hfresh⟩
    · rw [hitem]
      rfl
    · rw [hitem, hfresh]
      rfl
  refine (ensures_extend (h.ne_folder (by decide)) _).imp ?_
  intro _ d' hitems
  rw [hold, ← formatLog_append] at hitems
  have hothers : ∀ other ≠ logFile, d'.item? other = d.item? other := by
    intro other hother
    rw [hitems, if_neg hother]
  exact {
    hardState := by
      rw [hothers _ (by decide)]
      exact h.hardState
    log := .inl (by rw [hitems, if_pos rfl]; rfl)
    snapshot := by
      rw [hothers _ (by decide)]
      exact h.snapshot
    unblocked := fun name hname => by
      rw [hothers _ (temporary_ne hname (by decide))]
      exact h.unblocked name hname
    fits_hardState := h.fits_hardState
    fits_entries := List.forall_mem_append.mpr ⟨h.fits_entries, hfits⟩
    fits_snapshot := h.fits_snapshot }

/-- Leaving entries out rewrites the log. -/
theorem filterLog (h : d.Holds s) (keep : Entry → Bool) :
    Ensures (Directory.filterLog keep) d
      (fun _ d' => d'.Holds { s with entries := s.entries.filter keep })
      fun _ => False := by
  unfold Directory.filterLog
  apply Ensures.bind
  unfold Storage.inspect
  apply Ensures.of_ok
  · rw [h.loadEntries]
  · refine (h.replace (by decide) _).imp ?_
    rintro _ d' ⟨hlog, hothers, hunblocked⟩
    exact {
      hardState := by
        rw [hothers _ (by decide) (by decide)]
        exact h.hardState
      log := .inl hlog
      snapshot := by
        rw [hothers _ (by decide) (by decide)]
        exact h.snapshot
      unblocked := hunblocked
      fits_hardState := h.fits_hardState
      fits_entries := fun entry hentry =>
        h.fits_entries entry (List.mem_of_mem_filter hentry)
      fits_snapshot := h.fits_snapshot }

end Holds

/-- A directory without folders in the way never fails. -/
theorem retains_holds : Storage.Retains Holds IsWord False := by
  constructor
  · exact fun _ _ h => h.loadHardState
  · exact fun _ _ h => h.loadEntries
  · exact fun _ _ h => h.loadSnapshot
  · intro hard hfits d s h
    refine (h.replace (by decide) _).imp ?_
    rintro _ d' ⟨hhard, hothers, hunblocked⟩
    exact {
      hardState := .inl hhard
      log := by
        rw [hothers _ (by decide) (by decide)]
        exact h.log
      snapshot := by
        rw [hothers _ (by decide) (by decide)]
        exact h.snapshot
      unblocked := hunblocked
      fits_hardState := hfits
      fits_entries := h.fits_entries
      fits_snapshot := h.fits_snapshot }
  · intro entries hfits d s h
    change Ensures (if entries = [] then pure () else _) d _ _
    apply Ensures.ite
    · rintro rfl
      apply Ensures.of_ok rfl
      change d.Holds { s with entries := s.entries ++ [] }
      rw [List.append_nil]
      exact h
    · exact fun _ => h.extend hfits
  · exact fun _ _ _ h => h.filterLog _
  · exact fun _ _ _ h => h.filterLog _
  · intro snapshot hfits d s h
    refine (h.replace (by decide) _).imp ?_
    rintro _ d' ⟨hsnapshot, hothers, hunblocked⟩
    exact {
      hardState := by
        rw [hothers _ (by decide) (by decide)]
        exact h.hardState
      log := by
        rw [hothers _ (by decide) (by decide)]
        exact h.log
      snapshot := hsnapshot
      unblocked := hunblocked
      fits_hardState := h.fits_hardState
      fits_entries := h.fits_entries
      fits_snapshot := fun _ hsome => by
        injection hsome with hsame
        exact hsame ▸ hfits }

end Consensus.Directory
