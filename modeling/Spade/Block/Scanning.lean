import Spade.Block.Types

set_option autoImplicit false

/-! # The inputs that a block finds in its directory -/
namespace Spade.Block
open FileSystem Path

/-- An entry of `InputMultiple` has at least two paths. -/
inductive InputEntry where
  | single (path : String)
  | multiple (paths : List String) (two : 2 ≤ paths.length)

inductive ReadError where
  | os (e : Errno)
  | emptyInputDir (name : String)
  | inputNotFound (name : String)
  | typeMismatch (expected found : String)

abbrev Inputs := GoMap String InputEntry

/-- The paths in a directory, but those of directories; a link is not one. -/
def filesIn (dir : Path) (entries : List DirEntry) : List String :=
  (entries.filter fun e => !e.isDir).map fun e => text (dir ++ [e.name])

def entryOf (name : String) : List String → Except ReadError InputEntry
  | [] => .error (.emptyInputDir name)
  | [file] => .ok (.single file)
  | file :: next :: files => .ok (.multiple (file :: next :: files) (by simp))

/-- The loop body of `ScanInputs`. -/
def scanInput (inputsDir : Path) (fs : FileSystem) (result : Inputs) (subdir : DirEntry) :
    Except ReadError Inputs :=
  if subdir.isDir then
    match fs.readDirAt (names (inputsDir ++ [subdir.name])) with
    | .error e => .error (.os e)
    | .ok entries =>
      match entryOf subdir.name.1
          ((filesIn (inputsDir ++ [subdir.name]) entries).insertionSort (· ≤ ·)) with
      | .error e => .error e
      | .ok entry => .ok (result.insert subdir.name.1 entry)
  else .ok result

def scanInputs (base : Path) (fs : FileSystem) : Except ReadError Inputs :=
  match fs.readDirAt (names (base.join "inputs")) with
  | .error .notExist => .ok ∅
  | .error e => .error (.os e)
  | .ok subdirs =>
    (subdirs.insertionSort fun a b => a.name.1 ≤ b.name.1).foldlM
      (scanInput (base.join "inputs") fs) ∅

/-- What the types of a shape read. -/
inductive Shape where
  | file | collection | directory
  deriving DecidableEq

def Value.shape : Value → Shape
  | .file _ => .file
  | .collection _ => .collection
  | .directory _ => .directory

def fromSingleFile (path : String) : Shape → Except ReadError Value
  | .file => .ok (.file path)
  | .collection => .ok (.collection [path])
  | .directory => .error (.typeMismatch "directory" "file")

def fromMultipleFiles (paths : List String) (two : 2 ≤ paths.length) : Shape → Except ReadError Value
  | .file => .ok (.file (paths.head (by rintro rfl; simp at two)))
  | .collection => .ok (.collection paths)
  | .directory => .error (.typeMismatch "directory" "file")

/-- `Input`, for the types of a shape. -/
def input (args : Inputs) (name : String) (shape : Shape) : Except ReadError Value :=
  match args.lookup name with
  | none => .error (.inputNotFound name)
  | some (.single path) => fromSingleFile path shape
  | some (.multiple paths two) => fromMultipleFiles paths two shape

/-! What is found. -/

/-- The sub-directory is read, and gives the entry. -/
def Scanned (inputsDir : Path) (fs : FileSystem) (n : FileName) (entry : InputEntry) : Prop :=
  ∃ entries, fs.readDirAt (names (inputsDir ++ [n])) = .ok entries ∧
    entryOf n.1 ((filesIn (inputsDir ++ [n]) entries).insertionSort (· ≤ ·)) = .ok entry

variable {inputsDir : Path} {fs : FileSystem} {subdirs : List DirEntry} {args args' : Inputs}

theorem scanInput_ok {e : DirEntry} (hdir : e.isDir = true) :
    scanInput inputsDir fs args e = .ok args' ↔
      ∃ entry, Scanned inputsDir fs e.name entry ∧ args' = args.insert e.name.1 entry := by
  unfold scanInput Scanned
  rw [if_pos hdir]
  cases hr : fs.readDirAt (names (inputsDir ++ [e.name])) with
  | error err => simp
  | ok entries =>
    dsimp only
    cases hent : entryOf e.name.1
        ((filesIn (inputsDir ++ [e.name]) entries).insertionSort (· ≤ ·)) with
    | error err => simp [hent]
    | ok entry => simp [hent, eq_comm]

theorem scan_ok (hdirs : ∀ e ∈ subdirs, e.isDir = true) (hn : (subdirs.map DirEntry.name).Nodup)
    (h : subdirs.foldlM (scanInput inputsDir fs) args = .ok args') :
    (∀ e ∈ subdirs, ∃ entry, Scanned inputsDir fs e.name entry ∧ args'.lookup e.name.1 = some entry) ∧
      ∀ s, (∀ e ∈ subdirs, e.name.1 ≠ s) → args'.lookup s = args.lookup s := by
  induction subdirs generalizing args with
  | nil =>
    cases h
    exact ⟨fun _ h => (List.not_mem_nil h).elim, fun _ _ => rfl⟩
  | cons e subdirs ih =>
    rw [List.foldlM_cons] at h
    rw [List.map_cons, List.nodup_cons] at hn
    cases hs : scanInput inputsDir fs args e with
    | error err =>
      rw [hs] at h
      cases h
    | ok args₁ =>
      rw [hs] at h
      obtain ⟨entry, hentry, rfl⟩ := (scanInput_ok (hdirs e (by simp))).mp hs
      obtain ⟨hall, hother⟩ := ih (fun e he => hdirs e (by simp [he])) hn.2 h
      have hne : ∀ e' ∈ subdirs, e'.name.1 ≠ e.name.1 := by
        intro e' he' heq
        exact hn.1 (Subtype.ext heq ▸ List.mem_map_of_mem he')
      constructor
      · intro e' he'
        rcases List.mem_cons.mp he' with rfl | he'
        · exact ⟨entry, hentry, by rw [hother _ hne, AList.lookup_insert]⟩
        · exact hall e' he'
      · intro s hs
        rw [hother s fun e' he' => hs e' (by simp [he']), AList.lookup_insert_ne]
        exact (hs e (by simp)).symm

theorem scan_made (hdirs : ∀ e ∈ subdirs, e.isDir = true)
    (h : ∀ e ∈ subdirs, ∃ entry, Scanned inputsDir fs e.name entry) :
    ∃ args', subdirs.foldlM (scanInput inputsDir fs) args = .ok args' := by
  induction subdirs generalizing args with
  | nil => exact ⟨args, rfl⟩
  | cons e subdirs ih =>
    obtain ⟨entry, hentry⟩ := h e (by simp)
    rw [List.foldlM_cons, (scanInput_ok (hdirs e (by simp))).mpr ⟨entry, hentry, rfl⟩]
    exact ih (fun e he => hdirs e (by simp [he])) fun e he => h e (by simp [he])

theorem subdirs_spec (hstand : fs.Standing inputsDir) (hdirs : ∀ n : FileName,
    inputsDir ++ [n] ∈ fs → fs.lookup (inputsDir ++ [n]) = some .dir) :
    ∃ subdirs, fs.readDirAt (names inputsDir) = .ok subdirs ∧ (subdirs.map DirEntry.name).Nodup ∧
      (∀ e ∈ subdirs, e.isDir = true) ∧
      ∀ n : FileName, inputsDir ++ [n] ∈ fs ↔ ∃ e ∈ subdirs, e.name = n := by
  obtain ⟨l, -, hn, hmem, hread⟩ := readDirAt_standing hstand
  refine ⟨_, hread, ?_, fun e he => ?_, fun n => ?_⟩
  · rw [List.map_map]
    exact (List.map_id l).symm ▸ hn
  · obtain ⟨n, hmem', rfl⟩ := List.mem_map.mp he
    exact (hstand.concat (hdirs n ((hmem n).mp hmem'))).isDir
  · rw [← hmem]
    constructor
    · exact fun h => ⟨_, List.mem_map_of_mem h, rfl⟩
    · rintro ⟨e, he, rfl⟩
      obtain ⟨m, hm, rfl⟩ := List.mem_map.mp he
      exact hm

variable {base : Path}

/-- In a directory of directories, each of them has given an entry. -/
theorem scanInputs_ok (hstand : fs.Standing (base.join "inputs")) (hdirs : ∀ n : FileName,
    base.join "inputs" ++ [n] ∈ fs → fs.lookup (base.join "inputs" ++ [n]) = some .dir)
    (h : scanInputs base fs = .ok args) (n : FileName) (hmem : base.join "inputs" ++ [n] ∈ fs) :
    ∃ entry, Scanned (base.join "inputs") fs n entry ∧ args.lookup n.1 = some entry := by
  obtain ⟨subdirs, hread, hn, hall, hnames⟩ := subdirs_spec hstand hdirs
  unfold scanInputs at h
  rw [hread] at h
  have hperm := subdirs.perm_insertionSort fun a b => a.name.1 ≤ b.name.1
  obtain ⟨hscan, -⟩ := scan_ok (fun e he => hall e (hperm.mem_iff.mp he))
    ((hperm.map DirEntry.name).nodup_iff.mpr hn) h
  obtain ⟨e, he, rfl⟩ := (hnames n).mp hmem
  exact hscan e (hperm.mem_iff.mpr he)

theorem scanInputs_made (hstand : fs.Standing (base.join "inputs")) (hdirs : ∀ n : FileName,
    base.join "inputs" ++ [n] ∈ fs → fs.lookup (base.join "inputs" ++ [n]) = some .dir)
    (h : ∀ n : FileName, base.join "inputs" ++ [n] ∈ fs →
      ∃ entry, Scanned (base.join "inputs") fs n entry) : ∃ args, scanInputs base fs = .ok args := by
  obtain ⟨subdirs, hread, hn, hall, hnames⟩ := subdirs_spec hstand hdirs
  have hperm := subdirs.perm_insertionSort fun a b => a.name.1 ≤ b.name.1
  unfold scanInputs
  rw [hread]
  exact scan_made (fun e he => hall e (hperm.mem_iff.mp he)) fun e he =>
    h e.name ((hnames e.name).mpr ⟨e, hperm.mem_iff.mp he, rfl⟩)

/-- The paths of an entry. -/
def InputEntry.files : InputEntry → List String
  | .single path => [path]
  | .multiple paths _ => paths

theorem entryOf_files {name : String} {l : List String} {entry : InputEntry}
    (h : entryOf name l = .ok entry) : entry.files = l ∧ l ≠ [] := by
  match l, h with
  | [file], h =>
    obtain rfl := Except.ok.inj h
    exact ⟨rfl, List.cons_ne_nil _ _⟩
  | file :: next :: files, h =>
    obtain rfl := Except.ok.inj h
    exact ⟨rfl, List.cons_ne_nil _ _⟩

theorem entryOf_made (name : String) {l : List String} (h : l ≠ []) :
    ∃ entry, entryOf name l = .ok entry := by
  match l, h with
  | [file], _ => exact ⟨_, rfl⟩
  | file :: next :: files, _ => exact ⟨_, rfl⟩

variable {name : String} {entry : InputEntry}

theorem input_collection (h : args.lookup name = some entry) :
    input args name .collection = .ok (.collection entry.files) := by
  unfold input
  rw [h]
  cases entry <;> rfl

theorem input_file {path : String} (h : args.lookup name = some entry)
    (hfiles : entry.files = [path]) : input args name .file = .ok (.file path) := by
  unfold input
  rw [h]
  cases entry with
  | single p =>
    obtain rfl := List.singleton_inj.mp hfiles
    rfl
  | multiple ps two =>
    have hlen : ps = [path] := hfiles
    subst hlen
    simp at two

/-- Neither kind of entry is read as a directory. -/
theorem input_directory (v : Value) : input args name .directory ≠ .ok v := by
  unfold input
  cases args.lookup name with
  | none => exact fun h => by cases h
  | some entry =>
    cases entry
    · exact fun h => by cases h
    · exact fun h => by cases h

/-- A sub-directory without directories is read as what stands in it. -/
theorem scanned_files {n : FileName} (hstand : fs.Standing (inputsDir ++ [n]))
    (hflat : ∀ m : FileName, fs.lookup (inputsDir ++ [n] ++ [m]) ≠ some .dir) :
    ∃ l : List FileName, l.Nodup ∧ (∀ m, m ∈ l ↔ inputsDir ++ [n] ++ [m] ∈ fs) ∧
      ∀ entry, Scanned inputsDir fs n entry ↔
        entryOf n.1 ((l.map fun m => text (inputsDir ++ [n] ++ [m])).insertionSort (· ≤ ·)) =
          .ok entry := by
  obtain ⟨l, -, hn, hmem, hread⟩ := readDirAt_standing hstand
  refine ⟨l, hn, hmem, fun entry => ?_⟩
  have hfiles : filesIn (inputsDir ++ [n]) (l.map fun m => ⟨m, fs.isDir (inputsDir ++ [n] ++ [m])⟩) =
      l.map fun m => text (inputsDir ++ [n] ++ [m]) := by
    unfold filesIn
    rw [List.filter_eq_self.mpr, List.map_map]
    · rfl
    · intro e he
      obtain ⟨m, -, rfl⟩ := List.mem_map.mp he
      simp [FileSystem.isDir, hflat m]
  unfold Scanned
  rw [hread]
  constructor
  · rintro ⟨entries, hentries, h⟩
    obtain rfl := Except.ok.inj hentries
    rwa [hfiles] at h
  · intro h
    exact ⟨_, rfl, by rwa [hfiles]⟩

end Spade.Block
