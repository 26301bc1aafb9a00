import Spade.Block.Libraries

set_option autoImplicit false

/-!
# Where the block libraries agree

The four libraries on one `inputs/` directory and one declaration of inputs.
-/
namespace Spade.Block
open FileSystem Path

variable {fs : FileSystem} {base dir inputsDir : Path} {decls : GoMap String Shape} {n : FileName}

/-! Go reads the sub-directories themselves, and of them what is no directory itself. -/

def Go.scanInput (inputsDir : Path) (fs : FileSystem) (e : DirEntry) :
    Except ReadError (Option InputEntry) :=
  if e.isDir then
    (entryOf e.name.1
      (pathsIn (inputsDir ++ [e.name]) (listedNames fs (inputsDir ++ [e.name])))).map some
  else .ok none

theorem scanInput_real (hstand : fs.Standing inputsDir) {e : DirEntry}
    (he : e.isDir = fs.isDir (inputsDir ++ [e.name])) (args : Inputs) :
    scanInput inputsDir fs args e =
      insertRead (fun e : DirEntry => e.name.1) (Go.scanInput inputsDir fs) args e := by
  unfold scanInput insertRead Go.scanInput
  by_cases hdir : e.isDir = true
  · rw [if_pos hdir, if_pos hdir]
    have hreal : fs.Standing (inputsDir ++ [e.name]) := by
      refine hstand.concat ?_
      rw [he] at hdir
      simpa [isDir] using hdir
    have hfiles : (filesIn (inputsDir ++ [e.name]) ((namesIn fs (inputsDir ++ [e.name])).map
        fun m => ⟨m, fs.isDir (inputsDir ++ [e.name] ++ [m])⟩)).insertionSort (· ≤ ·) =
          pathsIn (inputsDir ++ [e.name]) (listedNames fs (inputsDir ++ [e.name])) := by
      rw [listedNames, ← pathsIn_sorted, filesIn, List.filter_map, List.map_map]
      rfl
    rw [(namesIn_real hreal).1]
    dsimp only
    rw [hfiles]
    cases entryOf e.name.1
      (pathsIn (inputsDir ++ [e.name]) (listedNames fs (inputsDir ++ [e.name]))) <;> rfl
  · rw [if_neg hdir, if_neg hdir]

theorem Go.scans (hstand : fs.Standing (base.join "inputs")) :
    ((∃ args, scanInputs base fs = .ok args) ↔
      ∀ n, fs.isDir (base.join "inputs" ++ [n]) = true →
        pathsIn (base.join "inputs" ++ [n]) (listedNames fs (base.join "inputs" ++ [n])) ≠ []) ∧
    ∀ args, scanInputs base fs = .ok args →
      Scans (fun n => fs.isDir (base.join "inputs" ++ [n]) = true)
        (fun n => pathsIn (base.join "inputs" ++ [n])
          (listedNames fs (base.join "inputs" ++ [n]))) args := by
  obtain ⟨hread, hmem⟩ := namesIn_real hstand
  set entries : List DirEntry := (namesIn fs (base.join "inputs")).map
    fun m => ⟨m, fs.isDir (base.join "inputs" ++ [m])⟩ with hentries
  have hperm := entries.perm_insertionSort fun a b => a.name.1 ≤ b.name.1
  have hbit : ∀ e ∈ entries.insertionSort fun a b => a.name.1 ≤ b.name.1,
      e.isDir = fs.isDir (base.join "inputs" ++ [e.name]) := by
    intro e he
    obtain ⟨m, -, rfl⟩ := List.mem_map.mp (hperm.mem_iff.mp he)
    rfl
  have hscan : scanInputs base fs = collect (fun e : DirEntry => e.name.1)
      (Go.scanInput (base.join "inputs") fs)
      (entries.insertionSort fun a b => a.name.1 ≤ b.name.1) := by
    unfold scanInputs
    rw [hread]
    exact foldlM_eq_collect fun args e he => scanInput_real hstand (hbit e he) args
  rw [hscan]
  refine scans_collect ?_ (fun e he => ?_) fun n hn => ?_
  · refine (hperm.map DirEntry.name).nodup_iff.mpr ?_
    rw [hentries, List.map_map]
    exact (List.map_id (namesIn fs (base.join "inputs"))).symm ▸ namesIn_nodup fs _
  · unfold Go.scanInput
    rw [hbit e he]
  · have hin : base.join "inputs" ++ [n] ∈ fs := by
      refine GoMap.mem_of_lookup (v := .dir) ?_
      simpa [isDir] using hn
    exact ⟨_, hperm.mem_iff.mpr (List.mem_map_of_mem ((hmem n).mpr hin)), rfl⟩

/-! Rust follows links, to sub-directories and to files. -/

theorem exists_inputs (hstand : fs.Standing inputsDir) : fs.existsAt inputsDir = true := by
  unfold existsAt
  rw [isDirAt_iff.mp (Standing.isDirAt hstand)]
  rfl

theorem namesIn_isDirAt (h : fs.isDirAt dir = true) : ∃ entries,
    fs.readDirAt (names dir) = .ok entries ∧ entries.map DirEntry.name = namesIn fs dir := by
  obtain ⟨entries, hentries⟩ := readDirAt_isDirAt h
  refine ⟨entries, hentries, ?_⟩
  unfold namesIn
  rw [hentries]

theorem mem_of_isDirAt (hstand : fs.Standing inputsDir) (h : fs.isDirAt (inputsDir ++ [n]) = true) :
    n ∈ namesIn fs inputsDir :=
  ((namesIn_real hstand).2 n).mpr (mem_of_stat hstand (isDirAt_iff.mp h))

theorem Rust.scans (hstand : fs.Standing (base.join "inputs")) :
    ((∃ args, Rust.scanInputsFrom base fs = .ok args) ↔
      ∀ n, fs.isDirAt (base.join "inputs" ++ [n]) = true →
        pathsIn (base.join "inputs" ++ [n]) (fileNames fs (base.join "inputs" ++ [n])) ≠ []) ∧
    ∀ args, Rust.scanInputsFrom base fs = .ok args →
      Scans (fun n => fs.isDirAt (base.join "inputs" ++ [n]) = true)
        (fun n => pathsIn (base.join "inputs" ++ [n])
          (fileNames fs (base.join "inputs" ++ [n]))) args := by
  obtain ⟨entries, hread, hnames⟩ := namesIn_isDirAt (Standing.isDirAt hstand)
  set found := (entries.filter fun e => fs.isDirAt (base.join "inputs" ++ [e.name])) with hfound
  have hperm := found.perm_insertionSort fun a b => a.name.1 ≤ b.name.1
  have hscan : Rust.scanInputsFrom base fs = collect (fun e : DirEntry => e.name.1)
      (Rust.scanInput (base.join "inputs") fs)
      (found.insertionSort fun a b => a.name.1 ≤ b.name.1) := by
    unfold Rust.scanInputsFrom
    dsimp only
    rw [if_pos (exists_inputs hstand), hread]
  rw [hscan]
  refine scans_collect ?_ (fun e he => ?_) fun n hn => ?_
  · refine (hperm.map DirEntry.name).nodup_iff.mpr ?_
    refine ((List.filter_sublist).map DirEntry.name).nodup ?_
    rw [hnames]
    exact namesIn_nodup fs _
  · have hdir : fs.isDirAt (base.join "inputs" ++ [e.name]) = true :=
      (List.mem_filter.mp (hperm.mem_iff.mp he)).2
    obtain ⟨inner, hinner, hmap⟩ := namesIn_isDirAt hdir
    unfold Rust.scanInput
    rw [if_pos hdir, hinner]
    dsimp only
    rw [hmap, pathsIn_sorted]
    rfl
  · have hin := mem_of_isDirAt hstand hn
    rw [← hnames] at hin
    obtain ⟨e, he, rfl⟩ := List.mem_map.mp hin
    exact ⟨e, hperm.mem_iff.mpr (List.mem_filter.mpr ⟨he, hn⟩), rfl⟩

/-! Python and TypeScript read by the declared types. -/

/-- No file is enough for a type that takes all files, or none. -/
def Wants (decls : GoMap String Shape) (s : String) : Prop :=
  decls.lookup s = none ∨ decls.lookup s = some .file

theorem typedValue_ok {s : String} {files : List String} :
    (∃ v, typedValue s dir files (decls.lookup s) = .ok v) ↔ (Wants decls s → files ≠ []) := by
  unfold Wants
  cases decls.lookup s with
  | none =>
    match files with
    | [] => simp [typedValue]
    | [file] => simp [typedValue]
    | file :: next :: files => simp [typedValue]
  | some shape =>
    cases shape with
    | file => cases files <;> simp [typedValue]
    | collection => simp [typedValue]
    | directory => simp [typedValue]

theorem typedValue_pick {s : String} {files : List String} {shape : Shape} {v : Value}
    (hshape : shape ≠ .directory) (h : typedValue s dir files (some shape) = .ok v) :
    pickFiles shape files = some v := by
  cases shape with
  | directory => exact absurd rfl hshape
  | collection =>
    cases h
    rfl
  | file =>
    cases files with
    | nil => cases h
    | cons file files =>
      cases h
      rfl

theorem byName_perm (l : List FileName) : (byName l).Perm l := l.perm_insertionSort _

theorem byUnits_perm (l : List FileName) : (byUnits l).Perm l := l.perm_insertionSort _

theorem names_perm {entries : List DirEntry} {l : List FileName}
    (hnames : entries.map DirEntry.name = namesIn fs dir)
    (hl : l.Perm (entries.map DirEntry.name)) :
    (∀ m, m ∈ l ↔ m ∈ namesIn fs dir) ∧ (l.map fun m : FileName => m.1).Nodup := by
  rw [hnames] at hl
  exact ⟨fun m => hl.mem_iff,
    List.Nodup.map Subtype.val_injective (hl.nodup_iff.mpr (namesIn_nodup fs _))⟩

theorem Python.scans (decls : GoMap String Shape) (hstand : fs.Standing (base.join "inputs")) :
    ((∃ vals, Python.scanInputs decls base fs = .ok vals) ↔
      ∀ n, fs.isDirAt (base.join "inputs" ++ [n]) = true → Wants decls n.1 →
        fileNames fs (base.join "inputs" ++ [n]) ≠ []) ∧
    ∀ vals, Python.scanInputs decls base fs = .ok vals → ∀ (n : FileName) (shape : Shape),
      fs.isDirAt (base.join "inputs" ++ [n]) = true → decls.lookup n.1 = some shape →
        shape ≠ .directory → vals.lookup n.1 = pickFiles shape
          (pathsIn (base.join "inputs" ++ [n]) (fileNames fs (base.join "inputs" ++ [n]))) := by
  obtain ⟨entries, hread, hnames⟩ := namesIn_isDirAt (Standing.isDirAt hstand)
  obtain ⟨hmem, hn⟩ := names_perm hnames (byName_perm _)
  have hscan : Python.scanInputs decls base fs = collect (fun m : FileName => m.1)
      (Python.scanInput decls (base.join "inputs") fs) (byName (entries.map DirEntry.name)) := by
    unfold Python.scanInputs
    dsimp only
    rw [if_pos (exists_inputs hstand), hread]
  have hone : ∀ m, fs.isDirAt (base.join "inputs" ++ [m]) = true →
      Python.scanInput decls (base.join "inputs") fs m =
        (typedValue m.1 (base.join "inputs" ++ [m])
          (pathsIn (base.join "inputs" ++ [m]) (fileNames fs (base.join "inputs" ++ [m])))
          (decls.lookup m.1)).map some := by
    intro m hdir
    obtain ⟨inner, hinner, hmap⟩ := namesIn_isDirAt hdir
    unfold Python.scanInput
    rw [if_pos hdir, hinner]
    dsimp only
    rw [hmap]
    rfl
  rw [hscan]
  refine ⟨?_, fun vals hvals m shape hdir hdecl hshape => ?_⟩
  · rw [collect_ok]
    constructor
    · intro h m hdir
      obtain ⟨o, ho⟩ := h m ((hmem m).mpr (mem_of_isDirAt hstand hdir))
      rw [hone m hdir] at ho
      have hok : ∃ v, typedValue m.1 (base.join "inputs" ++ [m])
          (pathsIn (base.join "inputs" ++ [m]) (fileNames fs (base.join "inputs" ++ [m])))
          (decls.lookup m.1) = .ok v := (exists_map some _).mp ⟨o, ho⟩
      exact fun hw => pathsIn_ne.mp (typedValue_ok.mp hok hw)
    · intro h m _
      by_cases hdir : fs.isDirAt (base.join "inputs" ++ [m]) = true
      · rw [hone m hdir]
        exact (exists_map some _).mpr (typedValue_ok.mpr fun hw => pathsIn_ne.mpr (h m hdir hw))
      · unfold Python.scanInput
        rw [if_neg hdir]
        exact ⟨none, rfl⟩
  · have hm := (collect_lookup hn hvals).1 m ((hmem m).mpr (mem_of_isDirAt hstand hdir))
    rw [hone m hdir, hdecl] at hm
    cases hv : typedValue m.1 (base.join "inputs" ++ [m])
        (pathsIn (base.join "inputs" ++ [m]) (fileNames fs (base.join "inputs" ++ [m])))
        (some shape) with
    | error e =>
      rw [hv] at hm
      cases hm
    | ok v =>
      rw [hv] at hm
      rw [← Except.ok.inj hm, typedValue_pick hshape hv]

/-! TypeScript stats every entry, and takes the names in the order of their units. -/

theorem filterFiles_ok {l : List FileName} :
    (∃ files, TypeScript.filterFiles fs dir l = .ok files) ↔
      ∀ f ∈ l, ∃ node, fs.stat (names (dir ++ [f])) = .ok node := by
  induction l with
  | nil => exact ⟨fun _ _ h => (List.not_mem_nil h).elim, fun _ => ⟨[], rfl⟩⟩
  | cons f l ih =>
    rw [List.forall_mem_cons, ← ih, TypeScript.filterFiles]
    cases fs.stat (names (dir ++ [f])) with
    | error e => simp
    | ok node =>
      cases node with
      | file s => cases TypeScript.filterFiles fs dir l <;> simp [Except.map]
      | dir => simp
      | link target => simp

theorem filterFiles_eq {l files : List FileName} (h : TypeScript.filterFiles fs dir l = .ok files) :
    files = l.filter fun f => fs.isFileAt (dir ++ [f]) := by
  induction l generalizing files with
  | nil => exact (Except.ok.inj h).symm
  | cons f l ih =>
    rw [TypeScript.filterFiles] at h
    rw [List.filter_cons, isFileAt]
    cases hs : fs.stat (names (dir ++ [f])) with
    | error e =>
      rw [hs] at h
      cases h
    | ok node =>
      rw [hs] at h
      cases node with
      | dir => exact ih h
      | link target => exact ih h
      | file s =>
        dsimp only at h
        cases hl : TypeScript.filterFiles fs dir l with
        | error e =>
          rw [hl] at h
          cases h
        | ok rest =>
          rw [hl] at h
          obtain rfl := Except.ok.inj h
          simp [ih hl]

/-- No entry of `inputs/` or of a directory in it is a link that leads nowhere. -/
def Resolved (fs : FileSystem) (inputsDir : Path) : Prop :=
  ∀ n ∈ namesIn fs inputsDir, (∃ node, fs.stat (names (inputsDir ++ [n])) = .ok node) ∧
    (fs.isDirAt (inputsDir ++ [n]) = true → ∀ m ∈ namesIn fs (inputsDir ++ [n]),
      ∃ node, fs.stat (names (inputsDir ++ [n] ++ [m])) = .ok node)

theorem TypeScript.scanInput_ok : (∃ o, TypeScript.scanInput decls inputsDir fs n = .ok o) ↔
    (∃ node, fs.stat (names (inputsDir ++ [n])) = .ok node) ∧
      (fs.isDirAt (inputsDir ++ [n]) = true → (∀ m ∈ namesIn fs (inputsDir ++ [n]),
        ∃ node, fs.stat (names (inputsDir ++ [n] ++ [m])) = .ok node) ∧
          (Wants decls n.1 → fileNames16 fs (inputsDir ++ [n]) ≠ [])) := by
  by_cases hdir : fs.isDirAt (inputsDir ++ [n]) = true
  · obtain ⟨inner, hinner, hmap⟩ := namesIn_isDirAt hdir
    have hstat := isDirAt_iff.mp hdir
    have hall : (∃ files, filterFiles fs (inputsDir ++ [n])
        (byUnits (inner.map DirEntry.name)) = .ok files) ↔ ∀ m ∈ namesIn fs (inputsDir ++ [n]),
          ∃ node, fs.stat (names (inputsDir ++ [n] ++ [m])) = .ok node := by
      rw [filterFiles_ok, hmap]
      exact forall_congr' fun m => imp_congr_left (byUnits_perm _).mem_iff
    unfold scanInput
    rw [hstat, hinner, ← hall]
    dsimp only
    cases hfiles : filterFiles fs (inputsDir ++ [n]) (byUnits (inner.map DirEntry.name)) with
    | error e => simp [hdir]
    | ok files =>
      have heq : files = fileNames16 fs (inputsDir ++ [n]) := by
        rw [filterFiles_eq hfiles, hmap]
        rfl
      rw [← heq]
      dsimp only
      rw [exists_map, typedValue_ok, pathsIn_ne]
      simp [hdir]
  · unfold scanInput
    cases hstat : fs.stat (names (inputsDir ++ [n])) with
    | error e => simp
    | ok node =>
      cases node with
      | dir => exact absurd (isDirAt_iff.mpr hstat) hdir
      | file s => simp [hdir]
      | link target => simp [hdir]

theorem TypeScript.scanInput_eq {o : Option Value}
    (h : TypeScript.scanInput decls inputsDir fs n = .ok o) :
    (fs.isDirAt (inputsDir ++ [n]) = true → ∃ v, typedValue n.1 (inputsDir ++ [n])
      (pathsIn (inputsDir ++ [n]) (fileNames16 fs (inputsDir ++ [n]))) (decls.lookup n.1) = .ok v ∧
        o = if n.1 = "__proto__" then none else some v) ∧
    (fs.isDirAt (inputsDir ++ [n]) ≠ true → o = none) := by
  unfold scanInput at h
  refine ⟨fun hdir => ?_, fun hdir => ?_⟩
  · obtain ⟨inner, hinner, hmap⟩ := namesIn_isDirAt hdir
    rw [isDirAt_iff.mp hdir, hinner] at h
    dsimp only at h
    cases hfiles : filterFiles fs (inputsDir ++ [n]) (byUnits (inner.map DirEntry.name)) with
    | error e =>
      rw [hfiles] at h
      cases h
    | ok files =>
      have heq : files = fileNames16 fs (inputsDir ++ [n]) := by
        rw [filterFiles_eq hfiles, hmap]
        rfl
      rw [hfiles] at h
      subst heq
      dsimp only at h
      cases hv : typedValue n.1 (inputsDir ++ [n])
          (pathsIn (inputsDir ++ [n]) (fileNames16 fs (inputsDir ++ [n]))) (decls.lookup n.1) with
      | error e =>
        rw [hv] at h
        cases h
      | ok v =>
        rw [hv] at h
        exact ⟨v, rfl, (Except.ok.inj h).symm⟩
  · cases hstat : fs.stat (names (inputsDir ++ [n])) with
    | error e =>
      rw [hstat] at h
      cases h
    | ok node =>
      rw [hstat] at h
      cases node with
      | dir => exact absurd (isDirAt_iff.mpr hstat) hdir
      | file s => exact (Except.ok.inj h).symm
      | link target => exact (Except.ok.inj h).symm

theorem TypeScript.scans (decls : GoMap String Shape) (hstand : fs.Standing (base.join "inputs")) :
    ((∃ vals, TypeScript.scanInputs decls base fs = .ok vals) ↔
      Resolved fs (base.join "inputs") ∧
        ∀ n, fs.isDirAt (base.join "inputs" ++ [n]) = true → Wants decls n.1 →
          fileNames16 fs (base.join "inputs" ++ [n]) ≠ []) ∧
    ∀ vals, TypeScript.scanInputs decls base fs = .ok vals → vals.lookup "__proto__" = none ∧
      ∀ (n : FileName) (shape : Shape), fs.isDirAt (base.join "inputs" ++ [n]) = true →
        n.1 ≠ "__proto__" → decls.lookup n.1 = some shape → shape ≠ .directory →
          vals.lookup n.1 = pickFiles shape
            (pathsIn (base.join "inputs" ++ [n]) (fileNames16 fs (base.join "inputs" ++ [n]))) := by
  obtain ⟨entries, hread, hnames⟩ := namesIn_isDirAt (Standing.isDirAt hstand)
  obtain ⟨hmem, hn⟩ := names_perm hnames (byUnits_perm _)
  have hscan : TypeScript.scanInputs decls base fs = collect (fun m : FileName => m.1)
      (TypeScript.scanInput decls (base.join "inputs") fs) (byUnits (entries.map DirEntry.name)) := by
    unfold TypeScript.scanInputs
    dsimp only
    rw [if_pos (exists_inputs hstand), hread]
  rw [hscan]
  refine ⟨?_, fun vals hvals => ?_⟩
  · rw [collect_ok]
    simp only [hmem, TypeScript.scanInput_ok]
    constructor
    · intro h
      refine ⟨fun m hm => ⟨(h m hm).1, fun hdir => ((h m hm).2 hdir).1⟩, fun m hdir hw => ?_⟩
      exact ((h m (mem_of_isDirAt hstand hdir)).2 hdir).2 hw
    · rintro ⟨hres, hfiles⟩ m hm
      exact ⟨(hres m hm).1, fun hdir => ⟨(hres m hm).2 hdir, hfiles m hdir⟩⟩
  · obtain ⟨hall, hrest⟩ := collect_lookup hn hvals
    refine ⟨?_, fun m shape hdir hproto hdecl hshape => ?_⟩
    · by_cases hin :
          "__proto__" ∈ (byUnits (entries.map DirEntry.name)).map fun m : FileName => m.1
      · obtain ⟨m, hm, hproto⟩ := List.mem_map.mp hin
        obtain ⟨hdir, hother⟩ := TypeScript.scanInput_eq (hall m hm)
        rw [← hproto]
        by_cases hd : fs.isDirAt (base.join "inputs" ++ [m]) = true
        · obtain ⟨v, -, hv⟩ := hdir hd
          rw [hv, if_pos hproto]
        · exact hother hd
      · exact hrest _ hin
    · obtain ⟨v, hv, hlookup⟩ :=
        (TypeScript.scanInput_eq (hall m ((hmem m).mpr (mem_of_isDirAt hstand hdir)))).1 hdir
      rw [hdecl] at hv
      rw [hlookup, if_neg hproto, typedValue_pick hshape hv]

/-! The lists of names that the four have of a directory. -/

/-- The first entry that is no directory itself is a file, which no file is below in the order of
the units; every entry that is no directory itself is a file, and none is above another. -/
def Told (fs : FileSystem) (dir : Path) : Shape → Prop
  | .file => ∃ m, fs.isFileAt (dir ++ [m]) = true ∧ ∀ m', dir ++ [m'] ∈ fs →
      fs.isDir (dir ++ [m']) ≠ true → m.1 ≤ m'.1 ∧
        (fs.isFileAt (dir ++ [m']) = true → ¬Above m.1 m'.1)
  | .collection => (∀ m, dir ++ [m] ∈ fs → fs.isDir (dir ++ [m]) ≠ true →
        fs.isFileAt (dir ++ [m]) = true) ∧
      ∀ a b, fs.isFileAt (dir ++ [a]) = true → fs.isFileAt (dir ++ [b]) = true → ¬Above a.1 b.1
  | .directory => False

theorem byName_sorted (l : List FileName) : (byName l).Pairwise fun a b => a.1 ≤ b.1 := by
  have : Std.Total fun a b : FileName => a.1 ≤ b.1 := ⟨fun a b => le_total a.1 b.1⟩
  have : IsTrans FileName fun a b => a.1 ≤ b.1 := ⟨fun _ _ _ => le_trans⟩
  exact List.pairwise_insertionSort _ l

theorem byUnits_sorted (l : List FileName) :
    (byUnits l).Pairwise fun a b => utf16 a.1 ≤ utf16 b.1 := by
  have : Std.Total fun a b : FileName => utf16 a.1 ≤ utf16 b.1 := ⟨fun a b => le_total _ _⟩
  have : IsTrans FileName fun a b => utf16 a.1 ≤ utf16 b.1 := ⟨fun _ _ _ => le_trans⟩
  exact List.pairwise_insertionSort _ l

theorem head_sorted {K : Type} [LinearOrder K] {key : FileName → K} (hkey : Function.Injective key)
    {l : List FileName} (h : l.Pairwise fun a b => key a ≤ key b) {m : FileName} :
    l.head? = some m ↔ m ∈ l ∧ ∀ x ∈ l, key m ≤ key x := by
  cases l with
  | nil => simp
  | cons y rest =>
    have hrest := (List.pairwise_cons.mp h).1
    rw [List.head?_cons, Option.some_inj]
    constructor
    · rintro rfl
      exact ⟨List.mem_cons_self, List.forall_mem_cons.mpr ⟨le_rfl, hrest⟩⟩
    · rintro ⟨hm, hleast⟩
      rcases List.mem_cons.mp hm with rfl | hm
      · rfl
      · exact hkey (le_antisymm (hrest m hm) (hleast y List.mem_cons_self))

theorem utf16_key : Function.Injective fun m : FileName => utf16 m.1 :=
  fun _ _ h => Subtype.ext (utf16_injective h)

theorem isDir_of_isFileAt (hstand : fs.Standing dir) (h : fs.isFileAt (dir ++ [n]) = true) :
    fs.isDir (dir ++ [n]) ≠ true := by
  intro hdir
  have hreal : fs.Standing (dir ++ [n]) := hstand.concat (by simpa [isDir] using hdir)
  obtain ⟨s, hs⟩ := isFileAt_iff.mp h
  rw [isDirAt_iff.mp (Standing.isDirAt hreal)] at hs
  cases hs

theorem mem_listedNames (hstand : fs.Standing dir) :
    n ∈ listedNames fs dir ↔ dir ++ [n] ∈ fs ∧ fs.isDir (dir ++ [n]) ≠ true := by
  unfold listedNames
  rw [(byName_perm _).mem_iff, List.mem_filter, (namesIn_real hstand).2]
  simp

theorem mem_fileNames : n ∈ fileNames fs dir ↔
    n ∈ namesIn fs dir ∧ fs.isFileAt (dir ++ [n]) = true := by
  unfold fileNames
  rw [(byName_perm _).mem_iff, List.mem_filter]

theorem mem_fileNames16 : n ∈ fileNames16 fs dir ↔
    n ∈ namesIn fs dir ∧ fs.isFileAt (dir ++ [n]) = true := by
  unfold fileNames16
  rw [List.mem_filter, (byUnits_perm _).mem_iff]

theorem fileNames16_perm (fs : FileSystem) (dir : Path) :
    (fileNames16 fs dir).Perm (fileNames fs dir) := by
  unfold fileNames16 fileNames
  exact ((byUnits_perm _).filter _).trans (byName_perm _).symm

theorem fileNames16_sorted (fs : FileSystem) (dir : Path) :
    (fileNames16 fs dir).Pairwise fun a b => utf16 a.1 ≤ utf16 b.1 :=
  (byUnits_sorted _).filter _

theorem fileNames_sorted (fs : FileSystem) (dir : Path) :
    (fileNames fs dir).Pairwise fun a b => a.1 ≤ b.1 :=
  byName_sorted _

theorem listedNames_sorted (fs : FileSystem) (dir : Path) :
    (listedNames fs dir).Pairwise fun a b => a.1 ≤ b.1 :=
  byName_sorted _

/-- In a list that is sorted both ways, the names and their units are in one order. -/
theorem units_le {l : List FileName} (h : l.Pairwise fun a b => a.1 ≤ b.1)
    (h16 : l.Pairwise fun a b => utf16 a.1 ≤ utf16 b.1) {a b : FileName} (ha : a ∈ l) (hb : b ∈ l)
    (hab : a.1 ≤ b.1) : utf16 a.1 ≤ utf16 b.1 := by
  induction l with
  | nil => exact (List.not_mem_nil ha).elim
  | cons x l ih =>
    rw [List.pairwise_cons] at h h16
    rcases List.mem_cons.mp ha with rfl | hal
    · rcases List.mem_cons.mp hb with rfl | hbl
      · exact le_rfl
      · exact h16.1 b hbl
    · rcases List.mem_cons.mp hb with rfl | hbl
      · rw [le_antisymm hab (h.1 a hal)]
      · exact ih h.2 h16.2 hal hbl

theorem mem_of_isFileAt (hstand : fs.Standing dir) (h : fs.isFileAt (dir ++ [n]) = true) :
    dir ++ [n] ∈ fs :=
  (isFileAt_iff.mp h).elim fun _ hs => mem_of_stat hstand hs

theorem mem_fileNames_iff (hstand : fs.Standing dir) :
    n ∈ fileNames fs dir ↔ fs.isFileAt (dir ++ [n]) = true := by
  rw [mem_fileNames, (namesIn_real hstand).2]
  exact and_iff_right_of_imp (mem_of_isFileAt hstand)

/-- The file that all four put first. -/
theorem heads_iff (hstand : fs.Standing dir) {m : FileName} :
    ((fileNames fs dir).head? = some m ∧ (listedNames fs dir).head? = some m ∧
      (fileNames16 fs dir).head? = some m) ↔
      fs.isFileAt (dir ++ [m]) = true ∧ ∀ m', dir ++ [m'] ∈ fs →
        fs.isDir (dir ++ [m']) ≠ true → m.1 ≤ m'.1 ∧
          (fs.isFileAt (dir ++ [m']) = true → ¬Above m.1 m'.1) := by
  have hkey : Function.Injective fun m : FileName => m.1 := Subtype.val_injective
  rw [head_sorted hkey (fileNames_sorted fs dir), head_sorted hkey (listedNames_sorted fs dir),
    head_sorted utf16_key (fileNames16_sorted fs dir)]
  simp only [(fileNames16_perm fs dir).mem_iff]
  constructor
  · rintro ⟨⟨hm, -⟩, ⟨-, hlisted⟩, -, hunits⟩
    refine ⟨(mem_fileNames_iff hstand).mp hm, fun m' hin hdir => ?_⟩
    have hle := hlisted m' ((mem_listedNames hstand).mpr ⟨hin, hdir⟩)
    exact ⟨hle, fun hf => (utf16_le hle).mp (hunits m' ((mem_fileNames_iff hstand).mpr hf))⟩
  · rintro ⟨hm, hleast⟩
    have hfiles : ∀ m' ∈ fileNames fs dir, m.1 ≤ m'.1 ∧ ¬Above m.1 m'.1 := by
      intro m' hm'
      have hf := (mem_fileNames_iff hstand).mp hm'
      have hboth := hleast m' (mem_of_isFileAt hstand hf) (isDir_of_isFileAt hstand hf)
      exact ⟨hboth.1, hboth.2 hf⟩
    have hin := (mem_fileNames_iff hstand).mpr hm
    refine ⟨⟨hin, fun m' hm' => (hfiles m' hm').1⟩, ⟨?_, fun m' hm' => ?_⟩, hin,
      fun m' hm' => (utf16_le (hfiles m' hm').1).mpr (hfiles m' hm').2⟩
    · exact (mem_listedNames hstand).mpr ⟨mem_of_isFileAt hstand hm, isDir_of_isFileAt hstand hm⟩
    · obtain ⟨hin, hdir⟩ := (mem_listedNames hstand).mp hm'
      exact (hleast m' hin hdir).1

theorem told_file (hstand : fs.Standing dir) : Told fs dir .file ↔
    fileNames fs dir ≠ [] ∧ (listedNames fs dir).head? = (fileNames fs dir).head? ∧
      (fileNames16 fs dir).head? = (fileNames fs dir).head? := by
  unfold Told
  simp only [← heads_iff hstand]
  constructor
  · rintro ⟨m, hf, hl, hu⟩
    exact ⟨fun hnil => by simp [hnil] at hf, hl.trans hf.symm, hu.trans hf.symm⟩
  · rintro ⟨hne, hl, hu⟩
    obtain ⟨m, rest, hcons⟩ := List.exists_cons_of_ne_nil hne
    have hf : (fileNames fs dir).head? = some m := by rw [hcons]; rfl
    exact ⟨m, hf, hl.trans hf, hu.trans hf⟩

theorem told_collection (hstand : fs.Standing dir) : Told fs dir .collection ↔
    listedNames fs dir = fileNames fs dir ∧ fileNames16 fs dir = fileNames fs dir := by
  constructor
  · rintro ⟨hlinks, habove⟩
    constructor
    · refine congrArg byName (List.filter_congr fun m hm => ?_)
      have hin := ((namesIn_real hstand).2 m).mp hm
      by_cases hdir : fs.isDir (dir ++ [m]) = true
      · have hno : fs.isFileAt (dir ++ [m]) ≠ true := fun hf => isDir_of_isFileAt hstand hf hdir
        simp [hdir, hno]
      · simp [hdir, hlinks m hin hdir]
    · refine (fileNames16_perm fs dir).eq_of_pairwise
        (fun a b _ _ hab hba => Subtype.ext (le_antisymm hab hba)) ?_ (byName_sorted _)
      refine (fileNames16_sorted fs dir).imp_of_mem fun {a b} ha hb hab => ?_
      rw [mem_fileNames16] at ha hb
      by_contra hlt
      exact absurd (utf16_lt.mpr (.inl ⟨not_le.mp hlt, habove b a hb.2 ha.2⟩)) hab.not_gt
  · rintro ⟨hl, hu⟩
    refine ⟨fun m hin hdir => ?_, fun a b ha hb habove => ?_⟩
    · rw [← mem_fileNames_iff hstand, ← hl, mem_listedNames hstand]
      exact ⟨hin, hdir⟩
    · have hsorted := fileNames16_sorted fs dir
      rw [hu] at hsorted
      have hle := units_le (fileNames_sorted fs dir) hsorted
        ((mem_fileNames_iff hstand).mpr ha) ((mem_fileNames_iff hstand).mpr hb) habove.lt.le
      exact (utf16_le habove.lt.le).mp hle habove

/-! What a handler is given in Go and in Rust. -/

theorem deliver_of_scans {P : FileName → Prop} {files : FileName → List String}
    {scanned : Except ReadError Inputs} {deliver : Except ReadError (GoMap String Value)}
    (hd : deliver = scanned >>= fun args => readAll args decls)
    (hs : ((∃ args, scanned = .ok args) ↔ ∀ n, P n → files n ≠ []) ∧
      ∀ args, scanned = .ok args → Scans P files args) :
    ((∃ vals, deliver = .ok vals) ↔ (∀ n, P n → files n ≠ []) ∧ ∀ s shape,
      decls.lookup s = some shape → shape ≠ .directory ∧ ∃ n : FileName, n.1 = s ∧ P n) ∧
    ∀ vals, deliver = .ok vals → ∀ (n : FileName) (shape : Shape), P n →
      decls.lookup n.1 = some shape → vals.lookup n.1 = pickFiles shape (files n) := by
  obtain ⟨hok, hscans⟩ := hs
  subst hd
  rw [← hok]
  cases hscan : scanned with
  | error e =>
    refine ⟨iff_of_false ?_ ?_, fun _ h => ?_⟩
    · rintro ⟨_, h⟩
      cases h
    · rintro ⟨⟨_, h⟩, -⟩
      cases h
    · cases h
  | ok args =>
    have hargs := hscans args hscan
    exact ⟨hargs.readAll_ok.trans (and_iff_right ⟨args, rfl⟩).symm,
      fun vals hvals n shape hn hdecl => hargs.readAll_lookup hvals hn hdecl⟩

theorem Go.delivers (decls : GoMap String Shape) (hstand : fs.Standing (base.join "inputs")) :
    ((∃ vals, Go.deliver decls base fs = .ok vals) ↔
      (∀ n, fs.isDir (base.join "inputs" ++ [n]) = true →
        pathsIn (base.join "inputs" ++ [n]) (listedNames fs (base.join "inputs" ++ [n])) ≠ []) ∧
      ∀ s shape, decls.lookup s = some shape → shape ≠ .directory ∧
        ∃ n : FileName, n.1 = s ∧ fs.isDir (base.join "inputs" ++ [n]) = true) ∧
    ∀ vals, Go.deliver decls base fs = .ok vals → ∀ (n : FileName) (shape : Shape),
      fs.isDir (base.join "inputs" ++ [n]) = true → decls.lookup n.1 = some shape →
        vals.lookup n.1 = pickFiles shape
          (pathsIn (base.join "inputs" ++ [n]) (listedNames fs (base.join "inputs" ++ [n]))) :=
  deliver_of_scans rfl (Go.scans hstand)

theorem Rust.delivers (decls : GoMap String Shape) (hstand : fs.Standing (base.join "inputs")) :
    ((∃ vals, Rust.deliver decls base fs = .ok vals) ↔
      (∀ n, fs.isDirAt (base.join "inputs" ++ [n]) = true →
        pathsIn (base.join "inputs" ++ [n]) (fileNames fs (base.join "inputs" ++ [n])) ≠ []) ∧
      ∀ s shape, decls.lookup s = some shape → shape ≠ .directory ∧
        ∃ n : FileName, n.1 = s ∧ fs.isDirAt (base.join "inputs" ++ [n]) = true) ∧
    ∀ vals, Rust.deliver decls base fs = .ok vals → ∀ (n : FileName) (shape : Shape),
      fs.isDirAt (base.join "inputs" ++ [n]) = true → decls.lookup n.1 = some shape →
        vals.lookup n.1 = pickFiles shape
          (pathsIn (base.join "inputs" ++ [n]) (fileNames fs (base.join "inputs" ++ [n]))) :=
  deliver_of_scans rfl (Rust.scans hstand)

/-- All four fail, or a handler is given the same by all four for each declared input. -/
def Agree (decls : GoMap String Shape) (base : Path) (fs : FileSystem) : Prop :=
  ((¬∃ g, Go.deliver decls base fs = .ok g) ∧ (¬∃ r, Rust.deliver decls base fs = .ok r) ∧
    (¬∃ t, TypeScript.scanInputs decls base fs = .ok t) ∧
      ¬∃ p, Python.scanInputs decls base fs = .ok p) ∨
  ∃ g r t p, Go.deliver decls base fs = .ok g ∧ Rust.deliver decls base fs = .ok r ∧
    TypeScript.scanInputs decls base fs = .ok t ∧ Python.scanInputs decls base fs = .ok p ∧
      ∀ s ∈ decls, g.lookup s = r.lookup s ∧ g.lookup s = t.lookup s ∧ g.lookup s = p.lookup s

/-- No link leads nowhere, every sub-directory holds a file, and each declared input is one itself
whose files all four take alike. -/
structure Alike (decls : GoMap String Shape) (fs : FileSystem) (inputsDir : Path) : Prop where
  resolved : Resolved fs inputsDir
  filled : ∀ n, fs.isDirAt (inputsDir ++ [n]) = true → ∃ m ∈ namesIn fs (inputsDir ++ [n]),
    fs.isFileAt (inputsDir ++ [n] ++ [m]) = true
  told : ∀ s shape, decls.lookup s = some shape → s ≠ "__proto__" ∧ ∃ n : FileName, n.1 = s ∧
    fs.isDir (inputsDir ++ [n]) = true ∧ Told fs (inputsDir ++ [n]) shape

/-- A sub-directory of which a file is wanted holds none, and Go finds one that holds nothing but
directories, a directory declared, or a declared input that is no sub-directory. -/
structure Refused (decls : GoMap String Shape) (fs : FileSystem) (inputsDir : Path) : Prop where
  wanting : ∃ n, fs.isDirAt (inputsDir ++ [n]) = true ∧ Wants decls n.1 ∧
    ∀ m ∈ namesIn fs (inputsDir ++ [n]), fs.isFileAt (inputsDir ++ [n] ++ [m]) ≠ true
  unread : (∃ n, fs.isDir (inputsDir ++ [n]) = true ∧ ∀ m, inputsDir ++ [n] ++ [m] ∈ fs →
      fs.isDir (inputsDir ++ [n] ++ [m]) = true) ∨
    ∃ s shape, decls.lookup s = some shape ∧
      (shape = .directory ∨ ∀ n : FileName, n.1 = s → fs.isDir (inputsDir ++ [n]) ≠ true)

theorem pickFiles_heads {L L' : List String} (h : L.head? = L'.head?) :
    pickFiles .file L = pickFiles .file L' := by
  have hpick : ∀ L : List String, pickFiles .file L = L.head?.map Value.file := by
    intro L
    cases L <;> rfl
  rw [hpick, hpick, h]

theorem heads_of_pickFiles {L L' : List String} (h : pickFiles .file L = pickFiles .file L') :
    L.head? = L'.head? := by
  cases L <;> cases L' <;> simp [pickFiles] at h ⊢
  exact h

theorem text_key : Function.Injective fun m : FileName => text (dir ++ [m]) :=
  fun _ _ => text_injective

theorem pathsIn_head (l : List FileName) :
    (pathsIn dir l).head? = l.head?.map fun m => text (dir ++ [m]) :=
  List.head?_map

/-- What the four take of a directory is the same where they are told the same. -/
theorem told_iff (hstand : fs.Standing dir) {shape : Shape} (hne : fileNames fs dir ≠ []) :
    Told fs dir shape ↔ shape ≠ .directory ∧
      pickFiles shape (pathsIn dir (listedNames fs dir)) =
        pickFiles shape (pathsIn dir (fileNames fs dir)) ∧
      pickFiles shape (pathsIn dir (fileNames16 fs dir)) =
        pickFiles shape (pathsIn dir (fileNames fs dir)) := by
  cases shape with
  | directory => simp [Told]
  | collection =>
    rw [told_collection hstand]
    simp [pickFiles, pathsIn_injective.eq_iff]
  | file =>
    rw [told_file hstand]
    have hhead : ∀ l l' : List FileName,
        pickFiles .file (pathsIn dir l) = pickFiles .file (pathsIn dir l') ↔ l.head? = l'.head? := by
      intro l l'
      constructor
      · intro h
        have hheads := heads_of_pickFiles h
        rw [pathsIn_head, pathsIn_head] at hheads
        exact Option.map_injective text_key hheads
      · intro h
        exact pickFiles_heads (by rw [pathsIn_head, pathsIn_head, h])
    rw [hhead, hhead]
    simp [hne]

theorem filled_iff : fileNames fs dir ≠ [] ↔
    ∃ m ∈ namesIn fs dir, fs.isFileAt (dir ++ [m]) = true := by
  constructor
  · intro hne
    obtain ⟨m, hm⟩ := List.exists_mem_of_ne_nil _ hne
    exact ⟨m, mem_fileNames.mp hm⟩
  · rintro ⟨m, hm⟩
    exact List.ne_nil_of_mem (mem_fileNames.mpr hm)

theorem isDirAt_of_isDir (hstand : fs.Standing inputsDir) (h : fs.isDir (inputsDir ++ [n]) = true) :
    fs.Standing (inputsDir ++ [n]) ∧ fs.isDirAt (inputsDir ++ [n]) = true := by
  have hreal : fs.Standing (inputsDir ++ [n]) := hstand.concat (by simpa [isDir] using h)
  exact ⟨hreal, Standing.isDirAt hreal⟩

theorem listed_of_files (hstand : fs.Standing dir) (h : fileNames fs dir ≠ []) :
    listedNames fs dir ≠ [] := by
  obtain ⟨m, hm, hfile⟩ := filled_iff.mp h
  exact List.ne_nil_of_mem ((mem_listedNames hstand).mpr
    ⟨((namesIn_real hstand).2 m).mp hm, isDir_of_isFileAt hstand hfile⟩)

theorem units_ne : fileNames16 fs dir ≠ [] ↔ fileNames fs dir ≠ [] :=
  not_congr ⟨fun h => (h ▸ fileNames16_perm fs dir).nil_eq.symm,
    fun h => (h ▸ fileNames16_perm fs dir).eq_nil⟩

theorem agree_of_alike (hstand : fs.Standing (base.join "inputs"))
    (h : Alike decls fs (base.join "inputs")) : Agree decls base fs := by
  obtain ⟨hgo, hgoVals⟩ := Go.delivers decls hstand
  obtain ⟨hrust, hrustVals⟩ := Rust.delivers decls hstand
  obtain ⟨hts, htsVals⟩ := TypeScript.scans decls hstand
  obtain ⟨hpy, hpyVals⟩ := Python.scans decls hstand
  have hfilled : ∀ n, fs.isDirAt (base.join "inputs" ++ [n]) = true →
      fileNames fs (base.join "inputs" ++ [n]) ≠ [] := fun n hn => filled_iff.mpr (h.filled n hn)
  have hshape : ∀ s shape, decls.lookup s = some shape → shape ≠ .directory := by
    rintro s _ hs rfl
    obtain ⟨-, n, -, -, htold⟩ := h.told s _ hs
    exact htold
  have hlisted : ∀ n, fs.isDir (base.join "inputs" ++ [n]) = true →
      listedNames fs (base.join "inputs" ++ [n]) ≠ [] := by
    intro n hn
    obtain ⟨hreal, hdirAt⟩ := isDirAt_of_isDir hstand hn
    exact listed_of_files hreal (hfilled n hdirAt)
  have hreal : ∀ s shape, decls.lookup s = some shape →
      ∃ n : FileName, n.1 = s ∧ fs.isDir (base.join "inputs" ++ [n]) = true := by
    intro s shape hs
    obtain ⟨-, n, hns, hdir, -⟩ := h.told s shape hs
    exact ⟨n, hns, hdir⟩
  obtain ⟨g, hg⟩ := hgo.mpr ⟨fun n hn => pathsIn_ne.mpr (hlisted n hn),
    fun s shape hs => ⟨hshape s shape hs, hreal s shape hs⟩⟩
  obtain ⟨r, hr⟩ := hrust.mpr ⟨fun n hn => pathsIn_ne.mpr (hfilled n hn),
    fun s shape hs => ⟨hshape s shape hs, (hreal s shape hs).imp fun n hn =>
      ⟨hn.1, (isDirAt_of_isDir hstand hn.2).2⟩⟩⟩
  obtain ⟨t, ht⟩ := hts.mpr ⟨h.resolved, fun n hn _ => units_ne.mpr (hfilled n hn)⟩
  obtain ⟨p, hp⟩ := hpy.mpr fun n hn _ => hfilled n hn
  refine .inr ⟨g, r, t, p, hg, hr, ht, hp, fun s hs => ?_⟩
  obtain ⟨shape, hs⟩ := GoMap.lookup_of_mem hs
  obtain ⟨hproto, n, rfl, hdir, htold⟩ := h.told s shape hs
  obtain ⟨hreal, hdirAt⟩ := isDirAt_of_isDir hstand hdir
  obtain ⟨hne, hlisted, hunits⟩ := (told_iff hreal (hfilled n hdirAt)).mp htold
  rw [hgoVals g hg n shape hdir hs, hrustVals r hr n shape hdirAt hs,
    (htsVals t ht).2 n shape hdirAt hproto hs hne, hpyVals p hp n shape hdirAt hs hne]
  exact ⟨hlisted, hlisted.trans hunits.symm, hlisted⟩

theorem agree_of_refused (hstand : fs.Standing (base.join "inputs"))
    (h : Refused decls fs (base.join "inputs")) : Agree decls base fs := by
  obtain ⟨n, hdir, hwants, hempty⟩ := h.wanting
  have hnil : ¬fileNames fs (base.join "inputs" ++ [n]) ≠ [] := fun hne =>
    (filled_iff.mp hne).elim fun m hm => hempty m hm.1 hm.2
  refine .inl ⟨fun hg => ?_, fun hr => ?_, fun ht => ?_, fun hp => ?_⟩
  · obtain ⟨hall, hdecl⟩ := (Go.delivers decls hstand).1.mp hg
    rcases h.unread with ⟨m, hm, hdirs⟩ | ⟨s, shape, hs, hbad⟩
    · obtain ⟨k, hk⟩ := List.exists_mem_of_ne_nil _ (pathsIn_ne.mp (hall m hm))
      obtain ⟨hin, hnot⟩ := (mem_listedNames (isDirAt_of_isDir hstand hm).1).mp hk
      exact hnot (hdirs k hin)
    · obtain ⟨hshape, m, hms, hm⟩ := hdecl s shape hs
      rcases hbad with hbad | hbad
      · exact hshape hbad
      · exact hbad m hms hm
  · exact hnil (pathsIn_ne.mp (((Rust.delivers decls hstand).1.mp hr).1 n hdir))
  · exact hnil (units_ne.mp (((TypeScript.scans decls hstand).1.mp ht).2 n hdir hwants))
  · exact hnil ((Python.scans decls hstand).1.mp hp n hdir hwants)

theorem refused_of_fail (hstand : fs.Standing (base.join "inputs"))
    (hg : ¬∃ g, Go.deliver decls base fs = .ok g)
    (hp : ¬∃ p, Python.scanInputs decls base fs = .ok p) :
    Refused decls fs (base.join "inputs") := by
  rw [(Python.scans decls hstand).1] at hp
  rw [(Go.delivers decls hstand).1] at hg
  push Not at hp
  obtain ⟨n, hdir, hwants, hnil⟩ := hp
  refine ⟨⟨n, hdir, hwants, fun m hm hfile => filled_iff.mpr ⟨m, hm, hfile⟩ hnil⟩, ?_⟩
  by_contra hno
  push Not at hno
  refine hg ⟨fun m hm => pathsIn_ne.mpr ?_, fun s shape hs => ?_⟩
  · obtain ⟨k, hin, hnot⟩ := hno.1 m hm
    exact List.ne_nil_of_mem ((mem_listedNames (isDirAt_of_isDir hstand hm).1).mpr ⟨hin, hnot⟩)
  · exact hno.2 s shape hs

theorem agree_iff (hstand : fs.Standing (base.join "inputs")) : Agree decls base fs ↔
    Alike decls fs (base.join "inputs") ∨ Refused decls fs (base.join "inputs") := by
  constructor
  · rintro (⟨hg, -, -, hp⟩ | ⟨g, r, t, p, hg, hr, ht, hp, hsame⟩)
    · exact .inr (refused_of_fail hstand hg hp)
    · obtain ⟨hgo, hgoVals⟩ := Go.delivers decls hstand
      obtain ⟨hrust, hrustVals⟩ := Rust.delivers decls hstand
      obtain ⟨hts, htsVals⟩ := TypeScript.scans decls hstand
      have hfilled : ∀ n, fs.isDirAt (base.join "inputs" ++ [n]) = true →
          fileNames fs (base.join "inputs" ++ [n]) ≠ [] :=
        fun n hn => pathsIn_ne.mp ((hrust.mp ⟨r, hr⟩).1 n hn)
      refine .inl ⟨(hts.mp ⟨t, ht⟩).1, fun n hn => filled_iff.mp (hfilled n hn),
        fun s shape hs => ?_⟩
      obtain ⟨hshape, n, rfl, hdir⟩ := (hgo.mp ⟨g, hg⟩).2 s shape hs
      obtain ⟨hreal, hdirAt⟩ := isDirAt_of_isDir hstand hdir
      obtain ⟨hgr, hgt, -⟩ := hsame n.1 (GoMap.mem_of_lookup hs)
      rw [hgoVals g hg n shape hdir hs] at hgr hgt
      rw [hrustVals r hr n shape hdirAt hs] at hgr
      have hproto : n.1 ≠ "__proto__" := by
        intro hproto
        obtain ⟨v, hv⟩ := (pickFiles_isSome (pathsIn_ne.mpr (hfilled n hdirAt))).mpr hshape
        rw [hgr, hv, hproto, (htsVals t ht).1] at hgt
        cases hgt
      rw [(htsVals t ht).2 n shape hdirAt hproto hs hshape, hgr] at hgt
      exact ⟨hproto, n, rfl, hdir,
        (told_iff hreal (hfilled n hdirAt)).mpr ⟨hshape, hgr, hgt.symm⟩⟩
  · rintro (halike | hrefused)
    · exact agree_of_alike hstand halike
    · exact agree_of_refused hstand hrefused

/-! Some directories. -/

section Samples

theorem inputs_plain : PlainName "inputs" := by decide

theorem data_plain : PlainName "data" := by decide

def inputsName : FileName := ⟨"inputs", inputs_plain⟩
def dataName : FileName := ⟨"data", data_plain⟩
def xName : FileName := ⟨"x", by decide⟩
def mapsName : FileName := ⟨"maps", by decide⟩

def dataInput (l : List (Path × Node)) : FileSystem :=
  l.foldl (fun fs e => fs.insert ([inputsName, dataName] ++ e.1) e.2)
    ((AList.singleton [inputsName] .dir).insert [inputsName, dataName] .dir)

def oneFile : FileSystem := dataInput [([xName], .file "1")]

/-- A link to a directory and nothing else. -/
def oneLink : FileSystem := (dataInput [([xName], .link "/maps")]).insert [mapsName] .dir

def dataDecl (shape : Shape) : GoMap String Shape := AList.singleton "data" shape

theorem agree_oneFile : Agree (dataDecl .collection) [] oneFile := by
  have hjoin : Path.join [] "inputs" = [inputsName] := by decide
  have hstand : oneFile.Standing (Path.join [] "inputs") := by
    intro q hne hq
    rw [hjoin] at hq
    rcases List.prefix_cons_iff.mp hq with rfl | ⟨rest, rfl, hrest⟩
    · exact absurd rfl hne
    · rw [List.prefix_nil.mp hrest]
      decide
  refine (agree_iff hstand).mpr (.inl ?_)
  have hnames : namesIn oneFile (Path.join [] "inputs") = [dataName] := by decide
  have hfiles : namesIn oneFile (Path.join [] "inputs" ++ [dataName]) = [xName] := by decide
  have hfile : oneFile.isFileAt (Path.join [] "inputs" ++ [dataName] ++ [xName]) = true := by
    decide
  have hdir : oneFile.isDir (Path.join [] "inputs" ++ [dataName]) = true := by decide
  obtain ⟨hreal, hdirAt⟩ := isDirAt_of_isDir hstand hdir
  have honly : ∀ m, Path.join [] "inputs" ++ [dataName] ++ [m] ∈ oneFile → m = xName := by
    intro m hm
    have hin := ((namesIn_real hreal).2 m).mpr hm
    rw [hfiles] at hin
    exact List.mem_singleton.mp hin
  refine ⟨fun n hn => ?_, fun n hn => ?_, fun s shape hs => ?_⟩
  · rw [hnames, List.mem_singleton] at hn
    subst hn
    refine ⟨⟨_, isDirAt_iff.mp hdirAt⟩, fun _ m hm => ?_⟩
    rw [hfiles, List.mem_singleton] at hm
    subst hm
    exact (isFileAt_iff.mp hfile).elim fun t ht => ⟨_, ht⟩
  · have hin := mem_of_isDirAt hstand hn
    rw [hnames, List.mem_singleton] at hin
    subst hin
    exact ⟨xName, by rw [hfiles]; exact List.mem_singleton_self _, hfile⟩
  · obtain ⟨rfl, rfl⟩ : s = "data" ∧ shape = .collection := by
      have hmem : (s, shape) ∈ [("data", Shape.collection)] := (GoMap.mem_items _ _ _).mpr hs
      simpa using hmem
    refine ⟨by decide, dataName, rfl, hdir, fun m hm _ => ?_, fun a b ha hb => ?_⟩
    · rw [honly m hm]
      exact hfile
    · rw [honly a (mem_of_isFileAt hreal ha), honly b (mem_of_isFileAt hreal hb)]
      exact fun habove => lt_irrefl _ habove.lt

theorem not_agree {decls : GoMap String Shape} {base : Path} {fs : FileSystem}
    (h : (Go.deliver decls base fs).isOk ≠ (TypeScript.scanInputs decls base fs).isOk) :
    ¬Agree decls base fs := by
  rintro (⟨hg, -, ht, -⟩ | ⟨g, r, t, p, hg, -, ht, -⟩)
  · cases hgo : Go.deliver decls base fs with
    | ok g => exact hg ⟨g, hgo⟩
    | error e =>
      cases hts : TypeScript.scanInputs decls base fs with
      | ok t => exact ht ⟨t, hts⟩
      | error e' =>
        rw [hgo, hts] at h
        exact h rfl
  · rw [hg, ht] at h
    exact h rfl

/-- A directory, no file at all, and a link to a directory. -/
theorem agree_fails :
    ¬Agree (dataDecl .directory) [] oneFile ∧ ¬Agree (dataDecl .collection) [] (dataInput []) ∧
      ¬Agree (dataDecl .file) [] oneLink := by
  refine ⟨not_agree ?_, not_agree ?_, not_agree ?_⟩ <;> decide +kernel

end Samples

end Spade.Block
