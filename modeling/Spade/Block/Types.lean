import Spade.Lib.Following
import Spade.Runner.Links

set_option autoImplicit false

/-!
# The output types of the block library

The types of one shape (a file, a collection, a directory) share what they do.
-/
namespace Spade.Block
open FileSystem Path

inductive Value where
  | file (path : String)
  | collection (paths : List String)
  | directory (path : String)

def copyFile (src : List String) (dst : Path) (d : Disk) : Disk.Result :=
  match d.fs.readAt src with
  | .error _ => d.fail
  | .ok data => d.write (writeFile data dst)

/-- `filepath.Join` of a path and a name in it. -/
def joinName (src : List String) (n : FileName) : List String := names (src.foldl push [] ++ [n])

/-- At most `depth` directories within each other, before a path gets too long. -/
def copyDirRecursive : ℕ → List String → Path → Disk → Disk.Result
  | 0, _, _, d => d.fail
  | depth + 1, src, dst, d =>
    match d.fs.readDirAt src with
    | .error _ => d.fail
    | .ok entries =>
      entries.foldlM (fun d entry =>
        if entry.isDir then
          match d.write (mkdirAll (dst ++ [entry.name])) with
          | .error stop => .error stop
          | .ok d => copyDirRecursive depth (joinName src entry.name) (dst ++ [entry.name]) d
        else copyFile (joinName src entry.name) (dst ++ [entry.name]) d) d

section
variable (cwd : Path)

/-- Copy the file that a path names under its base name. -/
def copyInto (outputDir : Path) (d : Disk) (path : String) : Disk.Result :=
  copyFile (absolute cwd path) (outputDir.join (base path)) d

def writeFileOutput (path : String) (outputDir : Path) (d : Disk) : Disk.Result :=
  match d.write (mkdirAll outputDir) with
  | .error stop => .error stop
  | .ok d => copyInto cwd outputDir d path

def writeCollectionOutput (paths : List String) (outputDir : Path) (d : Disk) : Disk.Result :=
  match d.write (mkdirAll outputDir) with
  | .error stop => .error stop
  | .ok d => paths.foldlM (copyInto cwd outputDir) d

def writeDirectoryOutput (depth : ℕ) (path : String) (outputDir : Path) (d : Disk) : Disk.Result :=
  match d.write (mkdirAll outputDir) with
  | .error stop => .error stop
  | .ok d => if path = "" then d.fail else copyDirRecursive depth (absolute cwd path) outputDir d

def Value.writeTo (depth : ℕ) (outputDir : Path) : Value → Disk → Disk.Result
  | .file path => writeFileOutput cwd path outputDir
  | .collection paths => writeCollectionOutput cwd paths outputDir
  | .directory path => writeDirectoryOutput cwd depth path outputDir

end

/-- What the value names is there. -/
def Value.Exists (cwd : Path) (fs : FileSystem) : Value → Prop
  | .file path => ∃ s, fs.readAt (absolute cwd path) = .ok s
  | .collection paths => ∀ path ∈ paths, ∃ s, fs.readAt (absolute cwd path) = .ok s
  | .directory path => fs.stat (absolute cwd path) = .ok .dir

/-- The paths that are copied one by one. -/
def Value.paths : Value → List String
  | .file path => [path]
  | .collection paths => paths
  | .directory _ => []

/-- What stands in the output directory are files that the paths name there. -/
def Places (cwd out : Path) (fs : FileSystem) (paths : List String) : Prop :=
  ∀ n : FileName, ∀ node, fs.lookup (out ++ [n]) = some node → ∃ path ∈ paths,
    base path = n.1 ∧ fs.locate (absolute cwd path) = .ok (out ++ [n]) ∧ ∃ s, node = .file s

/-- Before it is written, nothing stands in the output directory but files of the value. -/
def Value.InPlace (cwd out : Path) (fs : FileSystem) (v : Value) : Prop :=
  (∃ path, v = .directory path) ∨ Places cwd out fs v.paths

/-! What the writers leave. -/

/-- The output directory holds files of the base names besides those that were there. -/
structure Written (out : Path) (fs fs' : FileSystem) (paths : List String) : Prop where
  standing : fs'.Standing out
  outside : ∀ q, (∀ n : FileName, q ≠ out ++ [n]) → fs'.lookup q = fs.lookup q ∨
    fs.lookup q = none ∧ fs'.lookup q = some .dir
  names : ∀ n : FileName, out ++ [n] ∈ fs' ↔ n.1 ∈ paths.map base ∨ out ++ [n] ∈ fs
  files : ∀ n : FileName, ∀ node, fs'.lookup (out ++ [n]) = some node → ∃ s, node = .file s

/-- The paths are copied as they were. -/
structure Copied (cwd out : Path) (fs fs' : FileSystem) (paths : List String) : Prop where
  keeps : fs.Extends fs'
  copies : ∀ path ∈ paths, ∃ s, ∃ h : PlainName (base path),
    fs.readAt (absolute cwd path) = .ok s ∧ fs'.lookup (out ++ [⟨base path, h⟩]) = some (.file s)

variable {cwd out : Path} {fs : FileSystem} {d d' : Disk} {paths : List String}

theorem written_mkdir (hfiles : ∀ n : FileName, ∀ node, d.fs.lookup (out ++ [n]) = some node →
    ∃ s, node = .file s) (h : d.write (mkdirAll out) = .ok d') :
    Written out d.fs d'.fs [] ∧ d.fs.Extends d'.fs := by
  have hmk := Disk.write_ok h
  have hl := mkdirAll_lookup hmk
  have hout : ∀ n : FileName, d'.fs.lookup (out ++ [n]) = d.fs.lookup (out ++ [n]) := by
    intro n
    rw [hl, if_neg]
    rintro ⟨-, hp⟩
    have hlen := hp.length_le
    simp at hlen
  have houtside : ∀ q, d'.fs.lookup q = d.fs.lookup q ∨
      d.fs.lookup q = none ∧ d'.fs.lookup q = some .dir := by
    intro q
    rw [hl]
    split_ifs with hp
    · rcases mkdirAll_free hmk hp.1 hp.2 with hfree | hdir
      · exact .inr ⟨hfree, rfl⟩
      · exact .inl hdir.symm
    · exact .inl rfl
  refine ⟨⟨fun q hq hp => ?_, fun q _ => houtside q, fun n => ?_, fun n node hn => ?_⟩,
    fun q node hq => ?_⟩
  · rw [hl, if_pos ⟨hq, hp⟩]
  · rw [GoMap.mem_iff_lookup, GoMap.mem_iff_lookup, hout n]
    simp
  · exact hfiles n node (hout n ▸ hn)
  · rcases houtside q with hsame | ⟨hnone, -⟩
    · rw [hsame, hq]
    · rw [hnone] at hq
      cases hq

theorem copyInto_ok (hstand : d.fs.Standing out)
    (hfiles : ∀ n : FileName, ∀ node, d.fs.lookup (out ++ [n]) = some node → ∃ s, node = .file s)
    {path : String} (h : copyInto cwd out d path = .ok d') :
    ∃ s, ∃ hplain : PlainName (base path), d.fs.readAt (absolute cwd path) = .ok s ∧
      ∀ q, d'.fs.lookup q =
        if q = out ++ [⟨base path, hplain⟩] then some (.file s) else d.fs.lookup q := by
  unfold copyInto copyFile at h
  split at h
  · cases h
  · rename_i s hs
    have hplain := readAt_base hs
    have hold : d.fs.lookup (out ++ [⟨base path, hplain⟩]) = none ∨
        ∃ old, d.fs.lookup (out ++ [⟨base path, hplain⟩]) = some (.file old) := by
      cases hl : d.fs.lookup (out ++ [⟨base path, hplain⟩]) with
      | none => exact .inl rfl
      | some node =>
        obtain ⟨old, rfl⟩ := hfiles _ node hl
        exact .inr ⟨old, rfl⟩
    have hfs := Disk.write_ok h
    rw [join_plain hplain, writeFile_child s hstand hold] at hfs
    refine ⟨s, hplain, hs, fun q => ?_⟩
    rw [← Option.some.inj hfs, GoMap.lookup_insert_if]

theorem Written.copyInto {path : String} (hw : Written out fs d.fs paths)
    (h : copyInto cwd out d path = .ok d') : Written out fs d'.fs (paths ++ [path]) := by
  obtain ⟨s, hplain, -, hl⟩ := copyInto_ok hw.standing hw.files h
  have hchild : ∀ n : FileName, out ++ [n] = out ++ [⟨base path, hplain⟩] ↔ n.1 = base path := by
    intro n
    simp [Subtype.ext_iff]
  have hsame : ∀ q, (∀ n : FileName, q ≠ out ++ [n]) → d'.fs.lookup q = d.fs.lookup q :=
    fun q hq => by rw [hl, if_neg (hq _)]
  refine ⟨fun q hq hp => ?_, fun q hq => ?_, fun n => ?_, fun n node hn => ?_⟩
  · rw [hsame q fun n heq => ?_, hw.standing q hq hp]
    have hlen := hp.length_le
    rw [heq] at hlen
    simp at hlen
  · rw [hsame q hq]
    exact hw.outside q hq
  · have hn := hw.names n
    rw [GoMap.mem_iff_lookup] at hn ⊢
    rw [hl, List.map_append, List.mem_append, or_right_comm, ← hn]
    by_cases heq : n.1 = base path
    · rw [if_pos ((hchild n).mpr heq)]
      simp [heq]
    · rw [if_neg fun h => heq ((hchild n).mp h)]
      simp [heq]
  · rw [hl] at hn
    split_ifs at hn
    · exact ⟨s, (Option.some.inj hn).symm⟩
    · exact hw.files n node hn

/-- A path whose base name no other has is copied, also onto itself. -/
theorem Copied.copyInto {all : List String} {path : String} (hw : Written out fs d.fs paths)
    (hc : Copied cwd out fs d.fs paths) (hn : (all.map base).Nodup)
    (hpath : path ∈ all) (hnew : base path ∉ paths.map base)
    (hread : ∃ s, fs.readAt (absolute cwd path) = .ok s)
    (hplace : Places cwd out fs all) (h : copyInto cwd out d path = .ok d') : Copied cwd out fs d'.fs (paths ++ [path]) := by
  obtain ⟨s, hs⟩ := hread
  obtain ⟨s', hplain, hs', hl⟩ := copyInto_ok hw.standing hw.files h
  rw [hc.keeps.readAt hs] at hs'
  obtain rfl := Except.ok.inj hs'
  refine ⟨fun q node hq => ?_, fun p hp => ?_⟩
  · rw [hl]
    split_ifs with heq
    · subst heq
      obtain ⟨p, hp, hbase, hloc, t, rfl⟩ := hplace _ node hq
      obtain rfl := List.inj_on_of_nodup_map hn hp hpath hbase
      have ht : fs.readAt (absolute cwd p) = .ok t := by
        refine readAt_ok.mpr (stat_ok.mpr ⟨_, hloc, ?_⟩)
        rw [nodeAt, if_neg (by simp), hq]
      rw [hs] at ht
      rw [Except.ok.inj ht]
    · exact hc.keeps q node hq
  · rcases List.mem_append.mp hp with hp | hp
    · obtain ⟨t, hpt, ht, hcopy⟩ := hc.copies p hp
      refine ⟨t, hpt, ht, ?_⟩
      rw [hl, if_neg, hcopy]
      intro heq
      have hbase : base p = base path := by simpa using heq
      exact hnew (hbase ▸ List.mem_map_of_mem hp)
    · rw [List.mem_singleton.mp hp]
      exact ⟨s, hplain, hs, by rw [hl, if_pos rfl]⟩

theorem Written.copyAll {l : List String} (hw : Written out fs d.fs paths)
    (h : l.foldlM (Block.copyInto cwd out) d = .ok d') : Written out fs d'.fs (paths ++ l) := by
  induction l generalizing d paths with
  | nil =>
    cases h
    rwa [List.append_nil]
  | cons path l ih =>
    rw [List.foldlM_cons] at h
    cases hd : Block.copyInto cwd out d path with
    | error stop =>
      rw [hd] at h
      cases h
    | ok d₁ =>
      rw [hd] at h
      have hrest := ih (hw.copyInto hd) h
      rwa [List.append_assoc] at hrest

theorem Copied.copyAll {l : List String} (hw : Written out fs d.fs paths)
    (hc : Copied cwd out fs d.fs paths) (hn : ((paths ++ l).map base).Nodup)
    (hread : ∀ path ∈ l, ∃ s, fs.readAt (absolute cwd path) = .ok s)
    (hplace : Places cwd out fs (paths ++ l)) (h : l.foldlM (Block.copyInto cwd out) d = .ok d') : Copied cwd out fs d'.fs (paths ++ l) := by
  induction l generalizing d paths with
  | nil =>
    cases h
    rwa [List.append_nil]
  | cons path l ih =>
    rw [List.foldlM_cons] at h
    cases hd : Block.copyInto cwd out d path with
    | error stop =>
      rw [hd] at h
      cases h
    | ok d₁ =>
      rw [hd] at h
      have hnew : base path ∉ paths.map base := by
        intro hmem
        rw [List.map_append, List.map_cons, List.nodup_append] at hn
        exact hn.2.2 _ hmem _ List.mem_cons_self rfl
      have hc₁ := hc.copyInto hw hn (by simp) hnew
        (hread path (by simp)) hplace hd
      have hassoc : paths ++ path :: l = (paths ++ [path]) ++ l := by rw [List.append_assoc]; rfl
      rw [hassoc] at hn hplace ⊢
      exact ih (hw.copyInto hd) hc₁ hn (fun p hp => hread p (by simp [hp])) hplace h

/-- A file or a collection is copied path by path. -/
theorem writeTo_paths {v : Value} {depth : ℕ} (hdir : ∀ path, v ≠ .directory path)
    (h : v.writeTo cwd depth out d = .ok d') :
    ∃ d₁, d.write (mkdirAll out) = .ok d₁ ∧ v.paths.foldlM (copyInto cwd out) d₁ = .ok d' := by
  cases v with
  | directory path => exact absurd rfl (hdir path)
  | file path =>
    change writeFileOutput cwd path out d = .ok d' at h
    unfold writeFileOutput at h
    cases hw : d.write (mkdirAll out) with
    | error stop =>
      rw [hw] at h
      cases h
    | ok d₁ =>
      rw [hw] at h
      refine ⟨d₁, rfl, ?_⟩
      rw [Value.paths, List.foldlM_cons, show copyInto cwd out d₁ path = .ok d' from h]
      rfl
  | collection paths =>
    change writeCollectionOutput cwd paths out d = .ok d' at h
    unfold writeCollectionOutput at h
    cases hw : d.write (mkdirAll out) with
    | error stop =>
      rw [hw] at h
      cases h
    | ok d₁ =>
      rw [hw] at h
      exact ⟨d₁, rfl, h⟩

theorem Value.InPlace.place {v : Value} (hdir : ∀ path, v ≠ .directory path)
    (h : v.InPlace cwd out fs) : Places cwd out fs v.paths :=
  h.resolve_left fun ⟨path, hv⟩ => hdir path hv

theorem written_writeTo {v : Value} {depth : ℕ} (hdir : ∀ path, v ≠ .directory path)
    (hplace : v.InPlace cwd out d.fs) (h : v.writeTo cwd depth out d = .ok d') :
    Written out d.fs d'.fs v.paths ∧ ∀ n : FileName, out ++ [n] ∈ d'.fs ↔ n.1 ∈ v.paths.map base := by
  obtain ⟨d₁, hw, hall⟩ := writeTo_paths hdir h
  have hp := hplace.place hdir
  have hfiles : ∀ n : FileName, ∀ node, d.fs.lookup (out ++ [n]) = some node → ∃ s, node = .file s :=
    fun n node hn => (hp n node hn).elim fun _ h => h.2.2.2
  have hwritten := (written_mkdir hfiles hw).1.copyAll hall
  refine ⟨hwritten, fun n => (hwritten.names n).trans (or_iff_left_of_imp fun hn => ?_)⟩
  obtain ⟨node, hnode⟩ := GoMap.lookup_of_mem hn
  obtain ⟨path, hpath, hbase, -⟩ := hp n node hnode
  exact hbase ▸ List.mem_map_of_mem hpath

theorem copied_writeTo {v : Value} {depth : ℕ} (hdir : ∀ path, v ≠ .directory path)
    (hplace : v.InPlace cwd out d.fs) (hn : (v.paths.map base).Nodup)
    (hread : ∀ path ∈ v.paths, ∃ s, d.fs.readAt (absolute cwd path) = .ok s)
    (h : v.writeTo cwd depth out d = .ok d') : Copied cwd out d.fs d'.fs v.paths := by
  obtain ⟨d₁, hw, hall⟩ := writeTo_paths hdir h
  have hp := hplace.place hdir
  obtain ⟨hwritten, hkeeps⟩ := written_mkdir (fun n node hn => (hp n node hn).elim fun _ h => h.2.2.2) hw
  exact Copied.copyAll hwritten ⟨hkeeps, fun _ h => (List.not_mem_nil h).elim⟩ hn hread hp hall

end Spade.Block
