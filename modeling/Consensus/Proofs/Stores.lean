import Consensus.Proofs.Files
import Consensus.Storage.FileTree

/-!
# Files and memory cannot be told apart

Whatever is asked of a log store and a snapshot store, in whatever order, the stores
over files give the same answers as the stores in memory, even if the directory is
opened again at any point.  Both answer as a plain record of what was stored would:
each kind of disk retains what is written to it, and opening a directory that is there
finds it and changes nothing.
-/

namespace Consensus

/-! ## What can be asked of stores -/

/-- What can be asked of a disk. -/
inductive DiskCall where
  | append (entries : List Entry)
  | truncateFrom (index : ℕ)
  | compactTo (index : ℕ)
  | saveHardState (hard : HardState)
  | saveSnapshot (snapshot : Snapshot)
  | loadHardState
  | loadEntries
  | loadSnapshot

/-- What a disk answers. -/
inductive DiskAnswer where
  | done
  | hardState (hard : HardState)
  | entries (entries : List Entry)
  | snapshot (snapshot : Option Snapshot)
deriving DecidableEq

/-- What can be asked of stores that can be closed and opened again. -/
inductive StoreCall where
  | ask (call : DiskCall)
  | reopen

namespace DiskCall

/-- A disk serves a call. -/
def serve {σ : Type} [Storage σ] : DiskCall → EStateM Error σ DiskAnswer
  | append entries => do Storage.append entries; return .done
  | truncateFrom index => do Storage.truncateFrom index; return .done
  | compactTo index => do Storage.compactTo index; return .done
  | saveHardState hard => do Storage.saveHardState hard; return .done
  | saveSnapshot snapshot => do Storage.saveSnapshot snapshot; return .done
  | loadHardState => return .hardState (← Storage.inspect Storage.loadHardState)
  | loadEntries => return .entries (← Storage.inspect Storage.loadEntries)
  | loadSnapshot => return .snapshot (← Storage.inspect Storage.loadSnapshot)

/-- What is stored after a call. -/
def change : DiskCall → Stored → Stored
  | append entries, s => s.append entries
  | truncateFrom index, s => s.cut index
  | compactTo index, s => s.drop index
  | saveHardState hard, s => { s with hardState := hard }
  | saveSnapshot snapshot, s => { s with snapshot := some snapshot }
  | _, s => s

/-- What is to be answered to a call. -/
def answer : DiskCall → Stored → DiskAnswer
  | loadHardState, s => .hardState s.hardState
  | loadEntries, s => .entries s.entries
  | loadSnapshot, s => .snapshot s.snapshot
  | _, _ => .done

/-- The numbers in what is to be stored can all be written. -/
def Fits (Writable : ℕ → Prop) : DiskCall → Prop
  | append entries => ∀ entry ∈ entries, entry.Fits Writable
  | saveHardState hard => hard.Fits Writable
  | saveSnapshot snapshot => snapshot.Fits Writable
  | _ => True

end DiskCall

/-- Opening stores again stores nothing, so there is nothing that has to fit. -/
def StoreCall.Fits (Writable : ℕ → Prop) : StoreCall → Prop
  | ask call => call.Fits Writable
  | reopen => True

/-- The answers to calls that are made one after the other. -/
def transcript {σ : Type} (serve : StoreCall → EStateM Error σ DiskAnswer) :
    List StoreCall → σ → List (Except Error DiskAnswer)
  | [], _ => []
  | call :: calls, s =>
    (outcome (serve call) s).1 :: transcript serve calls (outcome (serve call) s).2

/-! ## Disks that retain what is written -/

namespace Storage.Retains

variable {σ : Type} [Storage σ] {Holds : σ → Stored → Prop} {Writable : ℕ → Prop}
  {disk : σ} {s : Stored}

/-- A disk that never fails serves every call as what is stored demands. -/
theorem serves (h : Storage.Retains Holds Writable False) (hholds : Holds disk s)
    {call : DiskCall} (hfits : call.Fits Writable) :
    Ensures call.serve disk
      (fun answer disk' => answer = call.answer s ∧ Holds disk' (call.change s))
      fun _ => False := by
  have hwrite : ∀ {act : EStateM Error σ Unit} {change : Stored → Stored},
      Storage.Makes Holds False act change →
        Ensures (do act; return DiskAnswer.done) disk
          (fun answer disk' => answer = .done ∧ Holds disk' (change s)) fun _ => False :=
    fun hmakes => (hmakes disk s hholds).andThen fun _ _ hdisk => ⟨rfl, hdisk⟩
  have hload : ∀ {α : Type} {look : σ → Except Error α} {a : α} {form : α → DiskAnswer},
      look disk = .ok a →
        Ensures (do return form (← Storage.inspect look)) disk
          (fun answer disk' => answer = form a ∧ Holds disk' s) fun _ => False := by
    intro α look a form hlook
    have hread : Storage.inspect look disk = .ok a disk := by rw [Storage.inspect, hlook]
    exact Ensures.bind_of_ok hread ⟨rfl, hholds⟩
  cases call with
  | append entries => exact hwrite (h.append entries hfits)
  | truncateFrom index => exact hwrite (h.truncateFrom index)
  | compactTo index => exact hwrite (h.compactTo index)
  | saveHardState hard => exact hwrite (h.saveHardState hard hfits)
  | saveSnapshot snapshot => exact hwrite (h.saveSnapshot snapshot hfits)
  | loadHardState => exact hload (h.loadHardState disk s hholds)
  | loadEntries => exact hload (h.loadEntries disk s hholds)
  | loadSnapshot => exact hload (h.loadSnapshot disk s hholds)

end Storage.Retains

namespace StoreCall

/-- What is stored after a call; opening stores again changes nothing. -/
def change : StoreCall → Stored → Stored
  | ask call, s => call.change s
  | reopen, s => s

/-- What is to be answered to a call. -/
def answer : StoreCall → Stored → DiskAnswer
  | ask call, s => call.answer s
  | reopen, _ => .done

/-- What is to be answered to calls that are made one after the other. -/
def answers : List StoreCall → Stored → List DiskAnswer
  | [], _ => []
  | call :: calls, s => call.answer s :: answers calls (call.change s)

end StoreCall

/-- Stores that answer each call as what is stored demands answer all of them so. -/
theorem transcript_eq {σ : Type} {serve : StoreCall → EStateM Error σ DiskAnswer}
    {Holds : σ → Stored → Prop} {Writable : ℕ → Prop}
    (hserve : ∀ call : StoreCall, call.Fits Writable → ∀ x s, Holds x s →
      Ensures (serve call) x
        (fun answer x' => answer = call.answer s ∧ Holds x' (call.change s))
        fun _ => False)
    {calls : List StoreCall} (hfits : ∀ call ∈ calls, call.Fits Writable) {x : σ}
    {s : Stored} (hholds : Holds x s) :
    transcript serve calls x = (StoreCall.answers calls s).map .ok := by
  induction calls generalizing x s with
  | nil => rfl
  | cons call calls ih =>
      obtain ⟨hcall, hcalls⟩ := List.forall_mem_cons.mp hfits
      obtain ⟨answer, x', hrun, hanswer, hholds'⟩ :=
        (hserve call hcall x s hholds).exists_ok
      have hout : outcome (serve call) x = (.ok answer, x') := by
        rw [outcome, hrun]
      rw [transcript, hout, ih hcalls hholds', hanswer]
      rfl

/-! ## Stores in memory -/

/-- Stores in memory serve a call; there is nothing to be opened. -/
def Memory.serve : StoreCall → EStateM Error Memory DiskAnswer
  | .ask call => call.serve
  | .reopen => return .done

theorem Memory.ensures_serve {Writable : ℕ → Prop} (call : StoreCall)
    (hfits : call.Fits Writable) (disk : Memory) (s : Stored)
    (hholds : disk.Retaining s) :
    Ensures (serve call) disk
      (fun answer disk' => answer = call.answer s ∧ disk'.Retaining (call.change s))
      fun _ => False := by
  cases call with
  | ask call => exact retains_clean.serves hholds hfits
  | reopen => exact ⟨rfl, hholds⟩

/-! ## Folders that are there -/

namespace FileTree

variable {t t' t₀ : FileTree} {path here : List String} {names : List String}

theorem folder_setFolder (t : FileTree) (path other : List String) (d : Directory) :
    (t.setFolder path d).folder other = if other = path then d else t.folder other := by
  unfold folder setFolder
  rw [List.lookup_cons, Directory.lookup_filter_ne]
  rcases eq_or_ne other path with rfl | hother
  · rw [beq_self_eq_true]
    exact (if_pos rfl).symm
  · rw [beq_eq_false_iff_ne.mpr hother, if_neg hother, if_neg hother]

/-- The folders on the way from `here` along the names are there, and the way ends at
the path. -/
def Leads (t : FileTree) : List String → List String → List String → Prop
  | here, [], path => path = here
  | here, name :: rest, path =>
    if name = ".." then Leads t here.dropLast rest path
    else (t.folder here).item? name = some .folder ∧ Leads t (here ++ [name]) rest path

/-- Every folder of the one tree is in the other. -/
def Within (t t' : FileTree) : Prop :=
  ∀ path name, (t.folder path).item? name = some .folder →
    (t'.folder path).item? name = some .folder

theorem Leads.mono (hwithin : t.Within t') (h : t.Leads here names path) :
    t'.Leads here names path := by
  induction names generalizing here with
  | nil => exact h
  | cons name rest ih =>
      unfold Leads at h ⊢
      split_ifs at h ⊢ with hup
      · exact ih h
      · exact ⟨hwithin _ _ h.1, ih h.2⟩

/-- Where the folders are there, none is made. -/
theorem Leads.makeFolders_eq (h : t.Leads here names path) :
    makeFolders here names t = .ok path t := by
  induction names generalizing here with
  | nil =>
      obtain rfl := h
      rfl
  | cons name rest ih =>
      unfold Leads at h
      unfold makeFolders
      split_ifs at h ⊢ with hup
      · exact ih h
      · have hget : ∀ f : FileTree → EStateM Error FileTree (List String),
            (get >>= f) t = f t t := fun _ => rfl
        rw [hget, h.1]
        exact ih h.2

/-- A folder that is made is there, and all that were there still are. -/
theorem ensures_makeFolders (here names : List String) (t : FileTree) :
    Ensures (makeFolders here names) t
      (fun path t' => t.Within t' ∧ t'.Leads here names path) fun _ => True := by
  induction names generalizing here t with
  | nil => exact ⟨fun _ _ h => h, rfl⟩
  | cons name rest ih =>
      unfold makeFolders
      refine Ensures.ite (fun hup => ?_) fun hup => ?_
      · refine (ih here.dropLast t).imp fun path t' hmade => ⟨hmade.1, ?_⟩
        unfold Leads
        rw [if_pos hup]
        exact hmade.2
      · rw [Ensures.get_bind_iff]
        cases hitem : (t.folder here).item? name with
        | none =>
            refine (ih (here ++ [name]) _).imp fun path t' hmade => ?_
            have hput : ∀ other key, ((t.setFolder here
                ((t.folder here).put name .folder)).folder other).item? key =
                  if other = here ∧ key = name then some .folder
                  else (t.folder other).item? key := by
              intro other key
              rw [folder_setFolder]
              split_ifs with hother hkey hkey
              · rw [Directory.item?_put, if_pos hkey.2]
              · rw [Directory.item?_put, if_neg fun hname => hkey ⟨hother, hname⟩, hother]
              · exact absurd hkey.1 hother
              · rfl
            refine ⟨fun other key hfolder => hmade.1 other key ?_, ?_⟩
            · rw [hput, hfolder, ite_self]
            · unfold Leads
              rw [if_neg hup]
              refine ⟨hmade.1 here name ?_, hmade.2⟩
              rw [hput, if_pos ⟨rfl, rfl⟩]
        | some item =>
            cases item with
            | file bytes => trivial
            | folder =>
                refine (ih (here ++ [name]) t).imp fun path t' hmade => ⟨hmade.1, ?_⟩
                unfold Leads
                rw [if_neg hup]
                exact ⟨hmade.1 here name hitem, hmade.2⟩

end FileTree

/-! ## Stores over files -/

/-- A log store and a snapshot store over one directory of a tree. -/
structure FileStores where
  tree : FileTree
  path : List String

namespace FileStores

/-- The directory of the stores. -/
def directory (f : FileStores) : Directory := f.tree.folder f.path

/-- The stores with the contents of their directory replaced. -/
def setDirectory (d : Directory) (f : FileStores) : FileStores :=
  { f with tree := f.tree.setFolder f.path d }

/-- Open the stores again at the place that the names lead to. -/
def reopen (names : List String) : EStateM Error FileStores Unit := fun f =>
  match FileTree.makeFolders [] names f.tree with
  | .ok path tree => .ok () ⟨tree, path⟩
  | .error e tree => .error e { f with tree }

/-- Stores over files serve a call. -/
def serve (names : List String) : StoreCall → EStateM Error FileStores DiskAnswer
  | .ask call => onPart directory setDirectory call.serve
  | .reopen => do reopen names; return .done

variable {names : List String} {t : FileTree} {f : FileStores} {s : Stored}

/-- The stores are at the place in the tree where the names led to an empty directory.
That directory holds what is stored, and all others are as they were. -/
structure Holds (names : List String) (t : FileTree) (f : FileStores) (s : Stored) :
    Prop where
  leads : t.Leads [] names f.path
  empty : t.folder f.path = {}
  elsewhere : ∀ other ≠ f.path, f.tree.folder other = t.folder other
  holds : f.directory.Holds s

/-- The way to the stores is still there. -/
theorem Holds.leads_now (h : Holds names t f s) : f.tree.Leads [] names f.path := by
  refine h.leads.mono fun other name hfolder => ?_
  by_cases hother : other = f.path
  · rw [hother, h.empty] at hfolder
    exact absurd hfolder (by simp [Directory.item?])
  · rw [h.elsewhere other hother]
    exact hfolder

/-- Opening the stores again finds them as they were. -/
theorem Holds.reopen_eq (h : Holds names t f s) : reopen names f = .ok () f := by
  rw [reopen, h.leads_now.makeFolders_eq]

theorem Holds.setDirectory (h : Holds names t f s) {d : Directory} {s' : Stored}
    (hd : d.Holds s') : Holds names t (f.setDirectory d) s' where
  leads := h.leads
  empty := h.empty
  elsewhere other hother := by
    have hkept : (f.tree.setFolder f.path d).folder other = f.tree.folder other :=
      (FileTree.folder_setFolder f.tree f.path other d).trans (if_neg hother)
    exact hkept.trans (h.elsewhere other hother)
  holds := by
    have hset : (f.tree.setFolder f.path d).folder f.path = d := by
      rw [FileTree.folder_setFolder, if_pos rfl]
    rw [directory, FileStores.setDirectory, hset]
    exact hd

theorem ensures_serve (call : StoreCall) (hfits : call.Fits IsWord) (f : FileStores)
    (s : Stored) (hholds : Holds names t f s) :
    Ensures (serve names call) f
      (fun answer f' => answer = call.answer s ∧ Holds names t f' (call.change s))
      fun _ => False := by
  cases call with
  | ask call =>
      refine Ensures.onPart ((Directory.retains_holds.serves hholds.holds hfits).imp ?_)
      rintro answer d ⟨hanswer, hd⟩
      exact ⟨hanswer, hholds.setDirectory hd⟩
  | reopen => exact Ensures.bind_of_ok hholds.reopen_eq ⟨rfl, hholds⟩

/-- Stores over files that start in an empty directory answer whatever is asked of them
as fresh stores in memory do, and no answer is a failure. -/
theorem transcript_eq_memory {path : List String} {t₀ : FileTree}
    (hopened : FileTree.makeFolders [] names t₀ = .ok path t)
    (hempty : t.folder path = {}) {calls : List StoreCall}
    (hfits : ∀ call ∈ calls, call.Fits IsWord) :
    transcript (serve names) calls ⟨t, path⟩ = transcript Memory.serve calls {} ∧
      ∀ answer ∈ transcript Memory.serve calls {}, ∃ a, answer = .ok a := by
  have hleads : t.Leads [] names path :=
    ((FileTree.ensures_makeFolders [] names t₀).ok hopened).2
  have hfiles : transcript (serve names) calls ⟨t, path⟩ =
      (StoreCall.answers calls {}).map .ok := by
    refine transcript_eq ensures_serve hfits ⟨hleads, hempty, fun _ _ => rfl, ?_⟩
    rw [directory, hempty]
    exact Directory.holds_empty
  have hmemory : transcript Memory.serve calls {} =
      (StoreCall.answers calls {}).map .ok :=
    transcript_eq Memory.ensures_serve hfits ⟨⟨rfl, rfl⟩, rfl⟩
  refine ⟨hfiles.trans hmemory.symm, fun answer hanswer => ?_⟩
  rw [hmemory] at hanswer
  obtain ⟨a, -, ha⟩ := List.mem_map.mp hanswer
  exact ⟨a, ha.symm⟩

/-- A tree with an empty folder in it. -/
def fresh : FileTree := ({} : FileTree).setFolder [] (({} : Directory).put "data" .folder)

/-- Calls that fill the log, cut it at both ends and look at it after a restart. -/
def sampleCalls : List StoreCall :=
  [.ask (.append [⟨1, 1, .noop⟩, ⟨1, 2, .command [0x0a, 0x22]⟩,
      ⟨2, 3, .config (.ofList [1, 2])⟩]),
    .ask (.saveHardState ⟨2, some 1⟩), .reopen, .ask (.truncateFrom 3), .ask (.compactTo 1),
    .reopen, .ask .loadEntries, .ask .loadHardState, .ask .loadSnapshot]

theorem transcript_sampleCalls :
    transcript (serve ["data"]) sampleCalls ⟨fresh, ["data"]⟩ =
        transcript Memory.serve sampleCalls {} ∧
      ∀ answer ∈ transcript Memory.serve sampleCalls {}, ∃ a, answer = .ok a := by
  have hopened : FileTree.makeFolders [] ["data"] {} = .ok ["data"] fresh := rfl
  refine transcript_eq_memory hopened rfl ?_
  simp only [sampleCalls, List.forall_mem_cons]
  refine ⟨?_, ?_, trivial, trivial, trivial, trivial, trivial, trivial, trivial, ?_⟩
  · simp only [StoreCall.Fits, DiskCall.Fits, List.forall_mem_cons]
    refine ⟨⟨by decide, by decide, ?_⟩, ⟨by decide, by decide, ?_⟩,
      ⟨by decide, by decide, ?_⟩, fun _ h => absurd h List.not_mem_nil⟩
    · rintro members ⟨⟩
    · rintro members ⟨⟩
    · rintro members ⟨⟩
      decide
  · exact ⟨by decide, by rintro id ⟨⟩; decide⟩
  · exact fun call hcall => absurd hcall List.not_mem_nil

end FileStores

end Consensus
