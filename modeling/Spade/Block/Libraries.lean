import Spade.Block.Scanning
import Spade.Lib.Utf16

set_option autoImplicit false

/-!
# The other block libraries

How the libraries for Rust, TypeScript and Python scan `inputs/`, and what a handler is given
by each of the four. Paths are texts from the root on.
-/
namespace Spade
open FileSystem Path

namespace FileSystem

def existsAt (p : Path) (fs : FileSystem) : Bool := (fs.stat p.names).isOk

/-- Whether a path leads to a regular file. -/
def isFileAt (p : Path) (fs : FileSystem) : Bool :=
  match fs.stat p.names with
  | .ok (.file _) => true
  | _ => false

/-- Whether a path leads to a directory. -/
def isDirAt (p : Path) (fs : FileSystem) : Bool :=
  match fs.stat p.names with
  | .ok .dir => true
  | _ => false

end FileSystem

namespace Block

def pathsIn (dir : Path) (l : List FileName) : List String := l.map fun m => text (dir ++ [m])

def byName (l : List FileName) : List FileName := l.insertionSort fun a b => a.1 ≤ b.1

/-- The order of strings in TypeScript. -/
def byUnits (l : List FileName) : List FileName := l.insertionSort fun a b => utf16 a.1 ≤ utf16 b.1

section
variable {A ε V : Type} (name : A → String) (read : A → Except ε (Option V))

def insertRead (result : GoMap String V) (a : A) : Except ε (GoMap String V) :=
  match read a with
  | .error e => .error e
  | .ok none => .ok result
  | .ok (some v) => .ok (result.insert (name a) v)

/-- A loop that reads entries, fails where that fails, and passes over some. -/
def collect (l : List A) : Except ε (GoMap String V) := l.foldlM (insertRead name read) ∅

end

/-- What a handler reads that asks for each declared input. -/
def readAll (args : Inputs) (decls : GoMap String Shape) : Except ReadError (GoMap String Value) :=
  collect Prod.fst (fun d => (input args d.1 d.2).map some) decls.items

namespace Go

def deliver (decls : GoMap String Shape) (base : Path) (fs : FileSystem) :
    Except ReadError (GoMap String Value) :=
  scanInputs base fs >>= fun args => readAll args decls

end Go

namespace Rust

/-- The loop body of `scan_inputs_from`. -/
def scanInput (inputsDir : Path) (fs : FileSystem) (entry : DirEntry) :
    Except ReadError (Option InputEntry) :=
  match fs.readDirAt (names (inputsDir ++ [entry.name])) with
  | .error e => .error (.os e)
  | .ok entries =>
    let files := (entries.map DirEntry.name).filter fun f =>
      fs.isFileAt (inputsDir ++ [entry.name] ++ [f])
    (entryOf entry.name.1
      ((pathsIn (inputsDir ++ [entry.name]) files).insertionSort (· ≤ ·))).map some

def scanInputsFrom (base : Path) (fs : FileSystem) : Except ReadError Inputs :=
  let inputsDir := base.join "inputs"
  if fs.existsAt inputsDir then
    match fs.readDirAt (names inputsDir) with
    | .error e => .error (.os e)
    | .ok dirEntries =>
      let entries := dirEntries.filter fun e => fs.isDirAt (inputsDir ++ [e.name])
      collect (fun e => e.name.1) (scanInput inputsDir fs)
        (entries.insertionSort fun a b => a.name.1 ≤ b.name.1)
  else .ok ∅

def deliver (decls : GoMap String Shape) (base : Path) (fs : FileSystem) :
    Except ReadError (GoMap String Value) :=
  scanInputsFrom base fs >>= fun args => readAll args decls

end Rust

inductive ScanError where
  | os (e : Errno)
  | message (text : String)

/-- The value for an input, by its declared type or else by the number of its files. -/
def typedValue (name : String) (subdir : Path) (files : List String) :
    Option Shape → Except ScanError Value
  | some .directory => .ok (.directory (text subdir))
  | some .collection => .ok (.collection files)
  | some .file =>
    match files with
    | [] => .error (.message s!"Input '{name}' expects a file but directory 'inputs/{name}' is empty")
    | file :: _ => .ok (.file file)
  | none =>
    match files with
    | [] => .error (.message s!"Input directory 'inputs/{name}' is empty")
    | [file] => .ok (.file file)
    | files => .ok (.collection files)

namespace TypeScript

/-- `filter` by `isFile`, which throws where there is nothing to stat. -/
def filterFiles (fs : FileSystem) (dir : Path) : List FileName → Except ScanError (List FileName)
  | [] => .ok []
  | f :: l =>
    match fs.stat (names (dir ++ [f])) with
    | .error e => .error (.os e)
    | .ok (.file _) => (filterFiles fs dir l).map (f :: ·)
    | .ok _ => filterFiles fs dir l

/-- The loop body of `scanInputs`. An assignment to `__proto__` makes no property. -/
def scanInput (typeHints : GoMap String Shape) (inputsDir : Path) (fs : FileSystem)
    (entry : FileName) : Except ScanError (Option Value) :=
  match fs.stat (names (inputsDir ++ [entry])) with
  | .error e => .error (.os e)
  | .ok .dir =>
    match fs.readDirAt (names (inputsDir ++ [entry])) with
    | .error e => .error (.os e)
    | .ok entries =>
      match filterFiles fs (inputsDir ++ [entry]) (byUnits (entries.map DirEntry.name)) with
      | .error e => .error e
      | .ok files =>
        (typedValue entry.1 (inputsDir ++ [entry]) (pathsIn (inputsDir ++ [entry]) files)
            (typeHints.lookup entry.1)).map
          fun v => if entry.1 = "__proto__" then none else some v
  | .ok _ => .ok none

def scanInputs (typeHints : GoMap String Shape) (base : Path) (fs : FileSystem) :
    Except ScanError (GoMap String Value) :=
  let inputsDir := base.join "inputs"
  if fs.existsAt inputsDir then
    match fs.readDirAt (names inputsDir) with
    | .error e => .error (.os e)
    | .ok entries =>
      collect (fun n => n.1) (scanInput typeHints inputsDir fs) (byUnits (entries.map DirEntry.name))
  else .ok ∅

end TypeScript

namespace Python

/-- The loop body of `scan_inputs`. -/
def scanInput (typeHints : GoMap String Shape) (inputsDir : Path) (fs : FileSystem)
    (subdir : FileName) : Except ScanError (Option Value) :=
  if fs.isDirAt (inputsDir ++ [subdir]) then
    match fs.readDirAt (names (inputsDir ++ [subdir])) with
    | .error e => .error (.os e)
    | .ok entries =>
      let files := byName ((entries.map DirEntry.name).filter fun f =>
        fs.isFileAt (inputsDir ++ [subdir] ++ [f]))
      (typedValue subdir.1 (inputsDir ++ [subdir]) (pathsIn (inputsDir ++ [subdir]) files)
        (typeHints.lookup subdir.1)).map some
  else .ok none

def scanInputs (typeHints : GoMap String Shape) (base : Path) (fs : FileSystem) :
    Except ScanError (GoMap String Value) :=
  let inputsDir := base.join "inputs"
  if fs.existsAt inputsDir then
    match fs.readDirAt (names inputsDir) with
    | .error e => .error (.os e)
    | .ok entries =>
      collect (fun n => n.1) (scanInput typeHints inputsDir fs) (byName (entries.map DirEntry.name))
  else .ok ∅

end Python

/-! What the loops collect. -/

section
variable {A ε V : Type} {name : A → String} {read : A → Except ε (Option V)} {l : List A}
  {m m' : GoMap String V}

theorem insertRead_ok {a : A} : insertRead name read m a = .ok m' ↔
    ∃ o, read a = .ok o ∧ m' = o.elim m (m.insert (name a)) := by
  unfold insertRead
  cases read a with
  | error e => simp
  | ok o => cases o <;> simp [eq_comm]

theorem foldlM_insertRead : (∃ m', l.foldlM (insertRead name read) m = .ok m') ↔
    ∀ a ∈ l, ∃ o, read a = .ok o := by
  induction l generalizing m with
  | nil => exact ⟨fun _ _ h => (List.not_mem_nil h).elim, fun _ => ⟨m, rfl⟩⟩
  | cons a l ih =>
    rw [List.foldlM_cons, List.forall_mem_cons]
    cases hstep : insertRead name read m a with
    | error e =>
      refine iff_of_false (fun ⟨_, h⟩ => by cases h) fun ⟨⟨o, ho⟩, _⟩ => ?_
      obtain ⟨m', hm'⟩ : ∃ m', insertRead name read m a = .ok m' :=
        ⟨_, insertRead_ok.mpr ⟨o, ho, rfl⟩⟩
      rw [hstep] at hm'
      cases hm'
    | ok m₁ =>
      obtain ⟨o, ho, -⟩ := insertRead_ok.mp hstep
      exact ih.trans (and_iff_right ⟨o, ho⟩).symm

/-- A loop that does the same with each of its entries. -/
theorem foldlM_eq_collect {step : GoMap String V → A → Except ε (GoMap String V)}
    (h : ∀ m, ∀ a ∈ l, step m a = insertRead name read m a) :
    l.foldlM step ∅ = collect name read l := by
  unfold collect
  generalize (∅ : GoMap String V) = m
  induction l generalizing m with
  | nil => rfl
  | cons a l ih =>
    rw [List.foldlM_cons, List.foldlM_cons, h m a List.mem_cons_self]
    exact bind_congr fun m' => ih (fun m a ha => h m a (List.mem_cons_of_mem _ ha)) m'

theorem collect_ok : (∃ m, collect name read l = .ok m) ↔ ∀ a ∈ l, ∃ o, read a = .ok o :=
  foldlM_insertRead

theorem exists_map {ε A B : Type} (f : A → B) (r : Except ε A) :
    (∃ o, r.map f = .ok o) ↔ ∃ v, r = .ok v := by
  cases r <;> simp [Except.map]

theorem foldlM_lookup (hn : (l.map name).Nodup) (h : l.foldlM (insertRead name read) m = .ok m')
    (hnew : ∀ a ∈ l, m.lookup (name a) = none) :
    (∀ a ∈ l, read a = .ok (m'.lookup (name a))) ∧
      ∀ s, s ∉ l.map name → m'.lookup s = m.lookup s := by
  induction l generalizing m with
  | nil =>
    cases h
    exact ⟨fun _ h => (List.not_mem_nil h).elim, fun _ _ => rfl⟩
  | cons a l ih =>
    rw [List.foldlM_cons] at h
    rw [List.map_cons, List.nodup_cons] at hn
    cases hstep : insertRead name read m a with
    | error e =>
      rw [hstep] at h
      cases h
    | ok m₁ =>
      rw [hstep] at h
      obtain ⟨o, ho, hm₁⟩ := insertRead_ok.mp hstep
      have hother : ∀ s, s ≠ name a → m₁.lookup s = m.lookup s := by
        intro s hs
        rw [hm₁]
        cases o with
        | none => rfl
        | some v => exact AList.lookup_insert_ne hs
      have hne : ∀ b ∈ l, name b ≠ name a := fun b hb heq =>
        hn.1 (heq ▸ List.mem_map_of_mem hb)
      obtain ⟨hread, hrest⟩ := ih hn.2 h fun b hb =>
        (hother _ (hne b hb)).trans (hnew b (List.mem_cons_of_mem _ hb))
      refine ⟨List.forall_mem_cons.mpr ⟨?_, hread⟩, fun s hs => ?_⟩
      · rw [ho, hrest _ hn.1, hm₁]
        cases o with
        | none => rw [Option.elim_none, hnew a List.mem_cons_self]
        | some v => rw [Option.elim_some, AList.lookup_insert]
      · rw [List.map_cons, List.mem_cons, not_or] at hs
        rw [hrest s hs.2, hother s hs.1]

theorem collect_lookup (hn : (l.map name).Nodup) (h : collect name read l = .ok m) :
    (∀ a ∈ l, read a = .ok (m.lookup (name a))) ∧ ∀ s, s ∉ l.map name → m.lookup s = none :=
  foldlM_lookup hn h fun _ _ => rfl

end

/-! What is found in a directory. -/

variable {fs : FileSystem} {dir inputsDir : Path} {n : FileName}

/-- The names in the directory that a path leads to. -/
def namesIn (fs : FileSystem) (dir : Path) : List FileName :=
  match fs.readDirAt (names dir) with
  | .error _ => []
  | .ok entries => entries.map DirEntry.name

/-- What is no directory itself. -/
def listedNames (fs : FileSystem) (dir : Path) : List FileName :=
  byName ((namesIn fs dir).filter fun m => !fs.isDir (dir ++ [m]))

def fileNames (fs : FileSystem) (dir : Path) : List FileName :=
  byName ((namesIn fs dir).filter fun m => fs.isFileAt (dir ++ [m]))

def fileNames16 (fs : FileSystem) (dir : Path) : List FileName :=
  (byUnits (namesIn fs dir)).filter fun m => fs.isFileAt (dir ++ [m])

theorem isDirAt_iff : fs.isDirAt dir = true ↔ fs.stat (names dir) = .ok .dir := by
  unfold isDirAt
  cases fs.stat (names dir) with
  | error e => simp
  | ok node => cases node <;> simp

theorem isFileAt_iff : fs.isFileAt dir = true ↔ ∃ s, fs.stat (names dir) = .ok (.file s) := by
  unfold isFileAt
  cases fs.stat (names dir) with
  | error e => simp
  | ok node => cases node <;> simp

theorem Standing.isDirAt (h : fs.Standing dir) : fs.isDirAt dir = true := by
  refine isDirAt_iff.mpr (stat_ok.mpr ⟨dir, locate_standing h, ?_⟩)
  unfold nodeAt
  split_ifs with hnil
  · rfl
  · exact h dir hnil (List.prefix_refl _)

theorem mem_of_stat {node : Node} (hstand : fs.Standing dir)
    (h : fs.stat (names (dir ++ [n])) = .ok node) : dir ++ [n] ∈ fs := by
  by_contra hmem
  have hnone := AList.lookup_eq_none.mpr hmem
  obtain ⟨q, hq, hnode⟩ := stat_ok.mp h
  rw [locate, follow_child _ hstand (by simp [hnone]) (by simp [hnone])] at hq
  obtain rfl := Except.ok.inj hq
  rw [nodeAt, if_neg (by simp), hnone] at hnode
  cases hnode

theorem readDirAt_isDirAt (h : fs.isDirAt dir = true) :
    ∃ entries, fs.readDirAt (names dir) = .ok entries := by
  obtain ⟨q, hq, hnode⟩ := stat_ok.mp (isDirAt_iff.mp h)
  have hdir : fs.isDir q = true := by
    unfold nodeAt at hnode
    unfold isDir
    split_ifs at hnode with hnil
    · simp [hnil]
    · simp [hnode]
  obtain ⟨l, hl, -⟩ := readDir_some hdir
  unfold readDirAt
  rw [hq]
  dsimp only
  rw [hl]
  exact ⟨_, rfl⟩

theorem readDirAt_nodup {raw : List String} {entries : List DirEntry}
    (h : fs.readDirAt raw = .ok entries) : (entries.map DirEntry.name).Nodup := by
  unfold readDirAt at h
  cases hq : fs.locate raw with
  | error e =>
    rw [hq] at h
    cases h
  | ok q =>
    rw [hq] at h
    by_cases hdir : fs.isDir q = true
    · obtain ⟨l, hl, hn, -⟩ := readDir_some hdir
      dsimp only at h
      rw [hl] at h
      obtain rfl := Except.ok.inj h
      rw [List.map_map]
      exact (List.map_id l).symm ▸ hn
    · dsimp only at h
      rw [show fs.readDir q = none from if_neg hdir] at h
      cases h

theorem namesIn_nodup (fs : FileSystem) (dir : Path) : (namesIn fs dir).Nodup := by
  unfold namesIn
  cases hr : fs.readDirAt (names dir) with
  | error e => exact List.nodup_nil
  | ok entries => exact readDirAt_nodup hr

theorem namesIn_real (hstand : fs.Standing dir) : fs.readDirAt (names dir) =
    .ok ((namesIn fs dir).map fun m => ⟨m, fs.isDir (dir ++ [m])⟩) ∧
      ∀ n, n ∈ namesIn fs dir ↔ dir ++ [n] ∈ fs := by
  obtain ⟨l, -, -, hmem, hread⟩ := readDirAt_standing hstand
  have hl : namesIn fs dir = l := by
    unfold namesIn
    rw [hread]
    dsimp only
    rw [List.map_map]
    exact List.map_id l
  rw [hread, hl]
  exact ⟨rfl, hmem⟩

/-! The order of the paths in a directory is that of the names. -/

theorem text_le {a b : FileName} : text (dir ++ [a]) ≤ text (dir ++ [b]) ↔ a.1 ≤ b.1 := by
  have htext : ∀ m : FileName, (text (dir ++ [m])).toList =
      (dir.flatMap fun n => '/' :: n.1.toList) ++ ['/'] ++ m.1.toList := by
    intro m
    rw [text, if_neg (by simp), String.toList_join, List.flatMap_map, List.flatMap_append]
    simp [String.toList_append]
  rw [← not_lt, ← not_lt, String.lt_iff_toList_lt, String.lt_iff_toList_lt, htext, htext, append_lt]

theorem text_injective {a b : FileName} (h : text (dir ++ [a]) = text (dir ++ [b])) : a = b :=
  Subtype.ext (le_antisymm (text_le.mp h.le) (text_le.mp h.ge))

theorem pathsIn_sorted (dir : Path) (l : List FileName) :
    (pathsIn dir l).insertionSort (· ≤ ·) = pathsIn dir (byName l) :=
  (List.map_insertionSort (fun a b : FileName => a.1 ≤ b.1) (· ≤ ·) (fun m => text (dir ++ [m])) l
    fun _ _ _ _ => text_le.symm).symm

theorem pathsIn_ne {l : List FileName} : pathsIn dir l ≠ [] ↔ l ≠ [] := by
  unfold pathsIn
  simp

theorem pathsIn_injective : Function.Injective (pathsIn dir) :=
  List.map_injective_iff.mpr fun _ _ => text_injective

/-! What each library reads. -/

/-- What a type takes from the files of an input. -/
def pickFiles : Shape → List String → Option Value
  | .file, file :: _ => some (.file file)
  | .collection, files => some (.collection files)
  | _, _ => none

theorem InputEntry.files_ne (entry : InputEntry) : entry.files ≠ [] := by
  cases entry with
  | single path => exact List.cons_ne_nil _ _
  | multiple paths two =>
    rintro hnil
    rw [show paths = [] from hnil] at two
    simp at two

theorem pickFiles_isSome {shape : Shape} {files : List String} (h : files ≠ []) :
    (∃ v, pickFiles shape files = some v) ↔ shape ≠ .directory := by
  obtain ⟨file, rest, rfl⟩ := List.exists_cons_of_ne_nil h
  cases shape <;> simp [pickFiles]

section
variable {args : Inputs} {decls : GoMap String Shape} {vals : GoMap String Value}
  {s : String} {shape : Shape} {v : Value}

theorem input_ok : input args s shape = .ok v ↔
    ∃ entry, args.lookup s = some entry ∧ pickFiles shape entry.files = some v := by
  unfold input
  cases args.lookup s with
  | none => simp
  | some entry =>
    cases entry with
    | single path =>
      cases shape <;> simp [fromSingleFile, pickFiles, InputEntry.files]
    | multiple paths two =>
      obtain ⟨path, rest, rfl⟩ := List.exists_cons_of_ne_nil (InputEntry.multiple paths two).files_ne
      cases shape <;> simp [fromMultipleFiles, pickFiles, InputEntry.files]

theorem readAll_ok : (∃ vals, readAll args decls = .ok vals) ↔
    ∀ s shape, decls.lookup s = some shape → ∃ v, input args s shape = .ok v := by
  unfold readAll
  rw [collect_ok]
  simp only [exists_map, Prod.forall, GoMap.mem_items]

theorem readAll_lookup (h : readAll args decls = .ok vals) (hd : decls.lookup s = some shape) :
    ∃ v, input args s shape = .ok v ∧ vals.lookup s = some v := by
  have hread := (collect_lookup decls.items_nodup h).1 (s, shape) ((GoMap.mem_items _ _ _).mpr hd)
  cases hv : input args s shape with
  | error e =>
    rw [hv] at hread
    cases hread
  | ok v =>
    rw [hv] at hread
    exact ⟨v, rfl, (Except.ok.inj hread).symm⟩

/-- The sub-directories that are read give their files. -/
structure Scans (P : FileName → Prop) (files : FileName → List String) (args : Inputs) : Prop where
  found : ∀ n, P n → ∃ entry, args.lookup n.1 = some entry ∧ entry.files = files n
  only : ∀ s entry, args.lookup s = some entry → ∃ n : FileName, n.1 = s ∧ P n

variable {P : FileName → Prop} {files : FileName → List String}

theorem Scans.readAll_ok (h : Scans P files args) : (∃ vals, readAll args decls = .ok vals) ↔
    ∀ s shape, decls.lookup s = some shape → shape ≠ .directory ∧ ∃ n : FileName, n.1 = s ∧ P n := by
  rw [Block.readAll_ok]
  refine forall₃_congr fun s shape _ => ?_
  simp only [input_ok]
  constructor
  · rintro ⟨v, entry, hentry, hv⟩
    exact ⟨(pickFiles_isSome entry.files_ne).mp ⟨v, hv⟩, h.only s entry hentry⟩
  · rintro ⟨hshape, n, rfl, hn⟩
    obtain ⟨entry, hentry, -⟩ := h.found n hn
    obtain ⟨v, hv⟩ := (pickFiles_isSome entry.files_ne).mpr hshape
    exact ⟨v, entry, hentry, hv⟩

theorem Scans.readAll_lookup (h : Scans P files args) (hvals : readAll args decls = .ok vals)
    (hn : P n) (hd : decls.lookup n.1 = some shape) :
    vals.lookup n.1 = pickFiles shape (files n) := by
  obtain ⟨v, hv, hlookup⟩ := Block.readAll_lookup hvals hd
  obtain ⟨entry, hentry, hpick⟩ := input_ok.mp hv
  obtain ⟨entry', hentry', hfiles⟩ := h.found n hn
  rw [hentry] at hentry'
  obtain rfl := Option.some.inj hentry'
  rw [hlookup, ← hfiles, hpick]

theorem scans_collect {A : Type} [DecidablePred P] {name : A → FileName}
    {read : A → Except ReadError (Option InputEntry)} {l : List A} (hn : (l.map name).Nodup)
    (hread : ∀ a ∈ l, read a =
      if P (name a) then (entryOf (name a).1 (files (name a))).map some else .ok none)
    (hmem : ∀ n, P n → ∃ a ∈ l, name a = n) :
    ((∃ args, collect (fun a => (name a).1) read l = .ok args) ↔ ∀ n, P n → files n ≠ []) ∧
      ∀ args, collect (fun a => (name a).1) read l = .ok args → Scans P files args := by
  have hentry : ∀ s L, (∃ o, (entryOf s L).map some = .ok o) ↔ L ≠ [] := by
    intro s L
    rw [exists_map]
    exact ⟨fun ⟨entry, he⟩ => (entryOf_files he).2, entryOf_made s⟩
  have hnodup : (l.map fun a => (name a).1).Nodup := by
    have h := hn.map Subtype.val_injective
    rwa [List.map_map] at h
  refine ⟨?_, fun args hargs => ?_⟩
  · rw [collect_ok]
    constructor
    · intro h n hp
      obtain ⟨a, ha, rfl⟩ := hmem n hp
      obtain ⟨o, ho⟩ := h a ha
      rw [hread a ha, if_pos hp] at ho
      exact (hentry _ _).mp ⟨o, ho⟩
    · intro h a ha
      rw [hread a ha]
      split_ifs with hp
      · exact (hentry _ _).mpr (h _ hp)
      · exact ⟨none, rfl⟩
  · obtain ⟨hall, hrest⟩ := collect_lookup hnodup hargs
    have hfound : ∀ a ∈ l, P (name a) → ∃ entry, args.lookup (name a).1 = some entry ∧
        entry.files = files (name a) := by
      intro a ha hp
      have h := hall a ha
      rw [hread a ha, if_pos hp] at h
      cases he : entryOf (name a).1 (files (name a)) with
      | error e =>
        rw [he] at h
        cases h
      | ok entry =>
        rw [he] at h
        exact ⟨entry, (Except.ok.inj h).symm, (entryOf_files he).1⟩
    refine ⟨fun n hp => ?_, fun s entry hs => ?_⟩
    · obtain ⟨a, ha, rfl⟩ := hmem n hp
      exact hfound a ha hp
    · by_contra hno
      have hnot : s ∉ l.map fun a => (name a).1 := by
        intro hmem'
        obtain ⟨a, ha, rfl⟩ := List.mem_map.mp hmem'
        have h := hall a ha
        rw [hread a ha, if_neg fun hp => hno ⟨_, rfl, hp⟩, hs] at h
        cases h
      rw [hrest s hnot] at hs
      cases hs

end

end Block
end Spade
