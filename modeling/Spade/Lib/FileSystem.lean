import Mathlib.Data.List.Infix
import Mathlib.Data.List.Sort
import Mathlib.Data.String.Basic
import Spade.Lib.GoMap

set_option autoImplicit false

/-!
# A file system

Paths are lists of names from the root on, and a symbolic link is a leaf that is not
followed.
-/
namespace Spade

/-- A text that is one element of a path. -/
def PlainName (s : String) : Prop := s ≠ "" ∧ s ≠ "." ∧ s ≠ ".." ∧ '/' ∉ s.toList

instance (s : String) : Decidable (PlainName s) := inferInstanceAs (Decidable (_ ∧ _))

abbrev FileName := { s : String // PlainName s }

abbrev Path := List FileName

namespace Path

/-- One element of a path text, where `.` stays and `..` goes back. -/
def push (p : Path) (s : String) : Path :=
  if h : PlainName s then p ++ [⟨s, h⟩] else if s = ".." then p.dropLast else p

/-- `filepath.Join`, with the cleaning of what is joined. -/
def join (p : Path) (s : String) : Path :=
  ((s.toList.splitOn '/').map String.ofList).foldl push p

def text (p : Path) : String := if p = [] then "/" else String.join (p.map fun n => "/" ++ n.1)

/-- `filepath.Base`. -/
def base (s : String) : String :=
  if s = "" then "."
  else
    match (s.toList.reverse.dropWhile (· = '/')).takeWhile (· ≠ '/') with
    | [] => "/"
    | cs => String.ofList cs.reverse

theorem push_plain {s : String} (h : PlainName s) (p : Path) : p.push s = p ++ [⟨s, h⟩] :=
  dif_pos h

theorem join_plain {s : String} (h : PlainName s) (p : Path) : p.join s = p ++ [⟨s, h⟩] := by
  have hone : s.toList.splitOn '/' = [s.toList] :=
    List.splitOnP_eq_singleton fun c hc => by
      rw [beq_eq_false_iff_ne]
      rintro rfl
      exact h.2.2.2 hc
  rw [join, hone, List.map_cons, List.map_nil, List.foldl_cons, List.foldl_nil,
    String.ofList_toList, push_plain h]

end Path

inductive Node where
  | dir
  | file (content : String)
  | link (target : String)
  deriving DecidableEq

abbrev FileSystem := GoMap Path Node

namespace FileSystem

/-- The root is always there. -/
def isDir (p : Path) (fs : FileSystem) : Bool := p = [] ∨ fs.lookup p = some .dir

def mkdirOne (fs : FileSystem) (p : Path) : Option FileSystem :=
  match fs.lookup p with
  | none => some (fs.insert p .dir)
  | some .dir => some fs
  | some _ => none

/-- The directory and those above it are made where they are missing. -/
def mkdirAll (p : Path) (fs : FileSystem) : Option FileSystem := p.inits.tail.foldlM mkdirOne fs

/-- Fails where something stands under the name of the link already. -/
def symlink (target : String) (p : Path) (fs : FileSystem) : Option FileSystem :=
  if fs.lookup p = none ∧ p ≠ [] ∧ fs.isDir p.dropLast then some (fs.insert p (.link target)) else none

/-- The names in a directory, sorted. -/
def readDir (p : Path) (fs : FileSystem) : Option (List FileName) :=
  if fs.isDir p then
    some ((fs.keys.filterMap fun k => if k.dropLast = p then k.getLast? else none).insertionSort
      fun a b => a.1 ≤ b.1)
  else none

def readFile (p : Path) (fs : FileSystem) : Option String :=
  match fs.lookup p with
  | some (.file content) => some content
  | _ => none

/-! What the operations do to single paths. -/

variable {fs fs' : FileSystem} {p q : Path}

theorem mkdirOne_spec (h : mkdirOne fs p = some fs') :
    (fs.lookup p = none ∨ fs.lookup p = some .dir) ∧
      ∀ q, fs'.lookup q = if q = p then some .dir else fs.lookup q := by
  unfold mkdirOne at h
  split at h
  · rename_i hp
    cases h
    exact ⟨.inl hp, fun q => GoMap.lookup_insert_if _ _ _ _⟩
  · rename_i hp
    cases h
    refine ⟨.inr hp, fun q => ?_⟩
    split_ifs with hq
    · rw [hq, hp]
    · rfl
  · cases h

theorem foldlM_mkdirOne {ps : List Path} (h : ps.foldlM mkdirOne fs = some fs') :
    (∀ q ∈ ps, fs.lookup q = none ∨ fs.lookup q = some .dir) ∧
    ∀ q, fs'.lookup q = if q ∈ ps then some .dir else fs.lookup q := by
  induction ps generalizing fs with
  | nil =>
    cases h
    exact ⟨fun _ h => (List.not_mem_nil h).elim, fun q => (if_neg List.not_mem_nil).symm⟩
  | cons p ps ih =>
    rw [List.foldlM_cons] at h
    obtain ⟨fs₁, h₁, h⟩ := Option.bind_eq_some_iff.mp h
    obtain ⟨hfree, hl⟩ := mkdirOne_spec h₁
    obtain ⟨hrest, hl'⟩ := ih h
    constructor
    · intro q hq
      by_cases hqp : q = p
      · exact hqp ▸ hfree
      · have hq := hrest q ((List.mem_cons.mp hq).resolve_left hqp)
        rwa [hl, if_neg hqp] at hq
    · intro q
      rw [hl', hl]
      by_cases hqp : q = p <;> simp [hqp]

theorem foldlM_mkdirOne_ok {ps : List Path}
    (h : ∀ q ∈ ps, fs.lookup q = none ∨ fs.lookup q = some .dir) :
    ∃ fs', ps.foldlM mkdirOne fs = some fs' := by
  induction ps generalizing fs with
  | nil => exact ⟨fs, rfl⟩
  | cons p ps ih =>
    rw [List.foldlM_cons]
    obtain ⟨fs₁, h₁⟩ : ∃ fs₁, mkdirOne fs p = some fs₁ := by
      unfold mkdirOne
      rcases h p (by simp) with hp | hp
      · exact ⟨_, by rw [hp]⟩
      · exact ⟨_, by rw [hp]⟩
    rw [h₁]
    refine ih fun q hq => ?_
    rw [(mkdirOne_spec h₁).2]
    split_ifs
    · exact .inr rfl
    · exact h q (by simp [hq])

theorem mem_dirs : q ∈ p.inits.tail ↔ q ≠ [] ∧ q <+: p := by
  cases p with
  | nil =>
    simp only [List.inits, List.tail_cons, List.not_mem_nil, List.prefix_nil, false_iff, not_and]
    exact fun h => h
  | cons a p =>
    rw [List.inits, List.tail_cons, List.mem_map]
    constructor
    · rintro ⟨l, hl, rfl⟩
      exact ⟨List.cons_ne_nil _ _, List.cons_prefix_cons.mpr ⟨rfl, List.mem_inits _ _ |>.mp hl⟩⟩
    · rintro ⟨hne, hpre⟩
      obtain ⟨b, l, rfl⟩ := List.exists_cons_of_ne_nil hne
      obtain ⟨rfl, hl⟩ := List.cons_prefix_cons.mp hpre
      exact ⟨l, (List.mem_inits _ _).mpr hl, rfl⟩

theorem mkdirAll_lookup (h : mkdirAll p fs = some fs') (q : Path) :
    fs'.lookup q = if q ≠ [] ∧ q <+: p then some .dir else fs.lookup q := by
  rw [(foldlM_mkdirOne h).2]
  exact if_congr mem_dirs rfl rfl

theorem mkdirAll_free (h : mkdirAll p fs = some fs') (hq : q ≠ []) (hp : q <+: p) :
    fs.lookup q = none ∨ fs.lookup q = some .dir :=
  (foldlM_mkdirOne h).1 q (mem_dirs.mpr ⟨hq, hp⟩)

theorem mkdirAll_ok
    (h : ∀ q, q ≠ [] → q <+: p → fs.lookup q = none ∨ fs.lookup q = some .dir) :
    ∃ fs', mkdirAll p fs = some fs' :=
  foldlM_mkdirOne_ok fun q hq => h q (mem_dirs.mp hq).1 (mem_dirs.mp hq).2

theorem symlink_eq_some {target : String} : symlink target p fs = some fs' ↔
    (fs.lookup p = none ∧ p ≠ [] ∧ fs.isDir p.dropLast = true) ∧
      fs' = fs.insert p (.link target) := by
  unfold symlink
  constructor
  · intro h
    split_ifs at h with hc
    cases h
    exact ⟨hc, rfl⟩
  · rintro ⟨hc, rfl⟩
    exact if_pos hc

theorem mem_children (name : FileName) :
    name ∈ (fs.keys.filterMap fun k => if k.dropLast = p then k.getLast? else none) ↔
      p ++ [name] ∈ fs := by
  rw [List.mem_filterMap]
  constructor
  · rintro ⟨k, hk, hname⟩
    split_ifs at hname with hd
    obtain ⟨l, rfl⟩ := List.getLast?_eq_some_iff.mp hname
    rw [List.dropLast_concat] at hd
    exact hd ▸ AList.mem_keys.mp hk
  · intro h
    refine ⟨p ++ [name], AList.mem_keys.mpr h, ?_⟩
    rw [List.dropLast_concat, if_pos rfl, List.getLast?_concat]

theorem children_nodup :
    (fs.keys.filterMap fun k => if k.dropLast = p then k.getLast? else none).Nodup := by
  refine List.Nodup.filterMap ?_ fs.keys_nodup
  intro k k' name hk hk'
  simp only [Option.mem_def] at hk hk'
  split_ifs at hk hk' with hd hd'
  obtain ⟨l, rfl⟩ := List.getLast?_eq_some_iff.mp hk
  obtain ⟨l', rfl⟩ := List.getLast?_eq_some_iff.mp hk'
  rw [List.dropLast_concat] at hd hd'
  rw [hd, hd']

/-- What is read of a directory depends on it and its children only. -/
theorem readDir_congr (hdir : fs'.isDir p = fs.isDir p)
    (h : ∀ name, p ++ [name] ∈ fs' ↔ p ++ [name] ∈ fs) : fs'.readDir p = fs.readDir p := by
  unfold readDir
  rw [hdir]
  congr 1
  congr 1
  have hanti : ∀ a b : FileName, a.1 ≤ b.1 → b.1 ≤ a.1 → a = b :=
    fun a b hab hba => Subtype.ext (String.le_antisymm hab hba)
  refine List.Perm.eq_of_pairwise (fun a b _ _ => hanti a b)
    (List.pairwise_insertionSort _ _) (List.pairwise_insertionSort _ _) ?_
  refine ((List.perm_insertionSort _ _).trans ?_).trans (List.perm_insertionSort _ _).symm
  refine (List.perm_ext_iff_of_nodup children_nodup children_nodup).mpr fun name => ?_
  rw [mem_children, mem_children, h]

/-- The names in order are what is read. -/
theorem readDir_of_sorted (hp : fs.isDir p = true) {l : List FileName}
    (hl : l.Pairwise fun a b => a.1 < b.1) (hmem : ∀ n, n ∈ l ↔ p ++ [n] ∈ fs) :
    fs.readDir p = some l := by
  rw [readDir, if_pos hp, Option.some.injEq]
  have hanti : ∀ a b : FileName, a.1 ≤ b.1 → b.1 ≤ a.1 → a = b :=
    fun a b hab hba => Subtype.ext (String.le_antisymm hab hba)
  refine List.Perm.eq_of_pairwise (fun a b _ _ => hanti a b) (List.pairwise_insertionSort _ _)
    (hl.imp le_of_lt) ((List.perm_insertionSort _ _).trans ?_)
  refine (List.perm_ext_iff_of_nodup children_nodup ?_).mpr fun name => ?_
  · exact hl.imp fun hlt heq => hlt.ne (congrArg Subtype.val heq)
  · rw [mem_children, hmem]

theorem readDir_some (hp : fs.isDir p = true) :
    ∃ names, fs.readDir p = some names ∧ names.Nodup ∧ ∀ n, n ∈ names ↔ p ++ [n] ∈ fs := by
  refine ⟨_, if_pos hp, ?_, fun n => ?_⟩
  · exact (List.perm_insertionSort _ _).nodup_iff.mpr children_nodup
  · rw [List.mem_insertionSort, mem_children]

end FileSystem
end Spade
