import Mathlib.Data.List.TakeWhile
import Spade.Lib.FileSystem

set_option autoImplicit false

/-!
# Paths whose links are followed

A path text is read element by element, and a link stands for the elements of its target.
-/
namespace Spade

inductive Errno where
  | notExist | notDir | isDir | loop
  deriving DecidableEq

namespace Path

/-- The elements of a path text, empty ones and dots included. -/
def components (s : String) : List String := (s.toList.splitOn '/').map String.ofList

def isAbs (s : String) : Bool := s.toList.head? = some '/'

def names (p : Path) : List String := p.map Subtype.val

/-- The elements from the root on, of a text that is read in a directory. -/
def absolute (cwd : Path) (s : String) : List String :=
  if isAbs s then components s else cwd.names ++ components s

end Path

structure DirEntry where
  name : FileName
  isDir : Bool
  deriving DecidableEq

namespace FileSystem
open Path

/-- The elements are followed from a directory on; `next` is what happens at a link. -/
def followWith (next : Path → List String → Except Errno Path) (fs : FileSystem) :
    Path → List String → Except Errno Path
  | cur, [] => .ok cur
  | cur, s :: rest =>
    if h : PlainName s then
      match fs.lookup (cur ++ [⟨s, h⟩]) with
      | none => if rest = [] then .ok (cur ++ [⟨s, h⟩]) else .error .notExist
      | some .dir => followWith next fs (cur ++ [⟨s, h⟩]) rest
      | some (.file _) => if rest = [] then .ok (cur ++ [⟨s, h⟩]) else .error .notDir
      | some (.link target) => next (if isAbs target then [] else cur) (components target ++ rest)
    else followWith next fs (if s = ".." then cur.dropLast else cur) rest

/-- At most `n` links are followed. -/
def follow (fs : FileSystem) : ℕ → Path → List String → Except Errno Path
  | 0 => followWith (fun _ _ => .error .loop) fs
  | n + 1 => followWith (follow fs n) fs

def maxLinks : ℕ := 40

/-- Where the elements lead; nothing has to be there. -/
def locate (raw : List String) (fs : FileSystem) : Except Errno Path := fs.follow maxLinks [] raw

def nodeAt (q : Path) (fs : FileSystem) : Option Node := if q = [] then some .dir else fs.lookup q

/-- `os.Stat`, with the content of what is a file. -/
def stat (raw : List String) (fs : FileSystem) : Except Errno Node :=
  match fs.locate raw with
  | .error e => .error e
  | .ok q =>
    match fs.nodeAt q with
    | none => .error .notExist
    | some node => .ok node

/-- `os.ReadFile`. -/
def readAt (raw : List String) (fs : FileSystem) : Except Errno String :=
  match fs.stat raw with
  | .ok (.file content) => .ok content
  | .ok .dir => .error .isDir
  | .ok (.link _) => .error .loop
  | .error e => .error e

/-- `os.ReadDir`: the names, sorted, and which of them are directories themselves. -/
def readDirAt (raw : List String) (fs : FileSystem) : Except Errno (List DirEntry) :=
  match fs.locate raw with
  | .error e => .error e
  | .ok q =>
    match fs.readDir q with
    | some names => .ok (names.map fun n => ⟨n, fs.isDir (q ++ [n])⟩)
    | none => .error (if q ∈ fs then .notDir else .notExist)

/-- `os.WriteFile`, which makes the file or replaces what it holds. -/
def writeFile (content : String) (p : Path) (fs : FileSystem) : Option FileSystem :=
  match fs.locate p.names with
  | .error _ => none
  | .ok q => if fs.isDir q then none else some (fs.insert q (.file content))

end FileSystem

/-! Path texts. -/

namespace Path

theorem components_text {p : Path} (hp : p ≠ []) : components p.text = "" :: p.names := by
  have hsplit : ∀ (p : Path) (pre : List Char), '/' ∉ pre →
      (pre ++ p.flatMap fun n => '/' :: n.1.toList).splitOn '/' = pre :: p.map fun n => n.1.toList := by
    intro p
    induction p with
    | nil =>
      intro pre hpre
      rw [List.flatMap_nil, List.append_nil]
      exact List.splitOn_eq_singleton hpre
    | cons n p ih =>
      intro pre hpre
      rw [List.flatMap_cons, List.cons_append, List.splitOn_append_cons_self_of_not_mem hpre,
        ih _ n.2.2.2.2]
      rfl
  have htext : p.text.toList = [] ++ p.flatMap fun n => '/' :: n.1.toList := by
    rw [text, if_neg hp, String.toList_join, List.flatMap_map, List.nil_append]
    simp only [String.toList_append]
    rfl
  unfold components names
  rw [htext, hsplit p [] List.not_mem_nil, List.map_cons, List.map_map]
  congr 1
  refine List.map_congr_left fun n _ => ?_
  exact String.ofList_toList

theorem isAbs_text (p : Path) : isAbs p.text = true := by
  cases p with
  | nil => rfl
  | cons n p =>
    simp [isAbs, text, String.toList_join, String.toList_append]

/-- The last element of a text, if it can be one, is its base. -/
theorem base_of_last {s c : String} (h : (components s).getLast? = some c) (hc : PlainName c) :
    base s = c := by
  have hrev : s.toList.reverse = s.toList.reverse.takeWhile (· ≠ '/') ++
      s.toList.reverse.dropWhile (· ≠ '/') := List.takeWhile_append_dropWhile.symm
  set l := s.toList.reverse.takeWhile (· ≠ '/') with hl
  have hno : '/' ∉ l.reverse := by
    rw [List.mem_reverse, hl]
    intro hmem
    simpa using List.mem_takeWhile_imp hmem
  have hlast : c = String.ofList l.reverse := by
    unfold components at h
    cases hd : s.toList.reverse.dropWhile (· ≠ '/') with
    | nil =>
      have hs : s.toList = l.reverse := by
        rw [← List.reverse_reverse s.toList, hrev, hd, List.append_nil]
      rw [hs, List.splitOn_eq_singleton hno] at h
      simpa using h.symm
    | cons x rest =>
      have hx : x = '/' := by
        have := List.head?_dropWhile_not (fun x => decide (x ≠ '/')) s.toList.reverse
        rw [hd] at this
        simpa using this
      have hs : s.toList = rest.reverse ++ '/' :: l.reverse := by
        rw [← List.reverse_reverse s.toList, hrev, hd, hx]
        simp
      rw [hs, List.splitOn_append_cons_self, List.splitOn_eq_singleton hno] at h
      simpa using h.symm
  subst hlast
  have hne : l ≠ [] := by
    intro hnil
    exact hc.1 (by rw [hnil]; rfl)
  obtain ⟨x, l', hcons⟩ := List.exists_cons_of_ne_nil hne
  have hx : x ≠ '/' := by
    rintro rfl
    exact hno (List.mem_reverse.mpr (hcons ▸ List.mem_cons_self))
  unfold base
  rw [if_neg]
  · have hdrop : s.toList.reverse.dropWhile (fun x => decide (x = '/')) = s.toList.reverse := by
      rw [hrev, hcons, List.cons_append, List.dropWhile_cons, if_neg (by simpa using hx)]
    rw [hdrop, ← hl, hcons]
  · rintro rfl
    exact hne (by rw [hl]; rfl)

theorem base_text (p : Path) (m : FileName) : base (text (p ++ [m])) = m.1 := by
  refine base_of_last ?_ m.2
  rw [components_text (by simp), names, List.map_append, ← List.cons_append]
  exact List.getLast?_concat

end Path

namespace FileSystem
open Path

variable {fs fs' : FileSystem}

theorem followWith_empty (next : Path → List String → Except Errno Path) (fs : FileSystem)
    (cur : Path) (rest : List String) :
    followWith next fs cur ("" :: rest) = followWith next fs cur rest := by
  rw [followWith, dif_neg (by simp [PlainName]), if_neg (by decide)]

theorem follow_empty (fs : FileSystem) (n : ℕ) (cur : Path) (rest : List String) :
    fs.follow n cur ("" :: rest) = fs.follow n cur rest := by
  cases n <;> exact followWith_empty _ _ _ _

theorem followWith_plain (next : Path → List String → Except Errno Path) (fs : FileSystem)
    (cur : Path) (n : FileName) (rest : List String) : followWith next fs cur (n.1 :: rest) =
      match fs.lookup (cur ++ [n]) with
      | none => if rest = [] then .ok (cur ++ [n]) else .error .notExist
      | some .dir => followWith next fs (cur ++ [n]) rest
      | some (.file _) => if rest = [] then .ok (cur ++ [n]) else .error .notDir
      | some (.link target) => next (if isAbs target then [] else cur) (components target ++ rest) := by
  rw [followWith, dif_pos n.2]

theorem follow_dirs {cur l : Path} (n : ℕ) (rest : List String)
    (h : ∀ q, q ≠ [] → q <+: l → fs.lookup (cur ++ q) = some .dir) :
    fs.follow n cur (l.names ++ rest) = fs.follow n (cur ++ l) rest := by
  have hwith : ∀ next, followWith next fs cur (names l ++ rest) = followWith next fs (cur ++ l) rest := by
    intro next
    induction l generalizing cur with
    | nil => rw [List.append_nil]; rfl
    | cons m l ih =>
      have hm := h [m] (List.cons_ne_nil _ _) ⟨l, rfl⟩
      change followWith next fs cur (m.1 :: (names l ++ rest)) = _
      rw [followWith_plain, hm]
      dsimp only
      rw [ih fun q hq hp => ?_, List.append_assoc]
      · rfl
      · rw [List.append_assoc]
        exact h (m :: q) (List.cons_ne_nil _ _) (List.cons_prefix_cons.mpr ⟨rfl, hp⟩)
  cases n <;> exact hwith _

theorem follow_plain {cur : Path} {m : FileName} (n : ℕ) (h : fs.lookup (cur ++ [m]) ≠ some .dir)
    (hlink : ∀ target, fs.lookup (cur ++ [m]) ≠ some (.link target)) :
    fs.follow n cur [m.1] = .ok (cur ++ [m]) := by
  have hwith : ∀ next, followWith next fs cur [m.1] = .ok (cur ++ [m]) := by
    intro next
    rw [followWith_plain]
    cases hl : fs.lookup (cur ++ [m]) with
    | none => rfl
    | some node =>
      cases node with
      | dir => exact absurd hl h
      | file content => rfl
      | link target => exact absurd hl (hlink target)
  cases n <;> exact hwith _

theorem follow_link {cur : Path} {m : FileName} {target : String} (n : ℕ) (rest : List String)
    (h : fs.lookup (cur ++ [m]) = some (.link target)) : fs.follow (n + 1) cur (m.1 :: rest) =
      fs.follow n (if isAbs target then [] else cur) (components target ++ rest) := by
  change followWith _ fs cur (m.1 :: rest) = _
  rw [followWith_plain, h]

theorem follow_text (n : ℕ) (p : Path) (rest : List String) :
    fs.follow n [] (components p.text ++ rest) = fs.follow n [] (p.names ++ rest) := by
  by_cases hp : p = []
  · subst hp
    rw [show components (text []) = ["", ""] by decide]
    exact (follow_empty _ _ _ _).trans (follow_empty _ _ _ _)
  · rw [components_text hp]
    exact follow_empty _ _ _ _

theorem locate_text (cwd p : Path) : fs.locate (absolute cwd p.text) = fs.locate p.names := by
  have h : fs.follow maxLinks [] (components p.text ++ []) = fs.follow maxLinks [] (p.names ++ []) :=
    follow_text maxLinks p []
  rw [List.append_nil, List.append_nil] at h
  rwa [absolute, if_pos (isAbs_text p)]

theorem readAt_text (cwd p : Path) : fs.readAt (absolute cwd p.text) = fs.readAt p.names := by
  unfold readAt stat
  rw [locate_text]

/-- Everything on the way to a path, itself included, is a directory. -/
def Standing (fs : FileSystem) (p : Path) : Prop :=
  ∀ q, q ≠ [] → q <+: p → fs.lookup q = some .dir

theorem standing_nil : fs.Standing [] :=
  fun _ hq hp => absurd (List.prefix_nil.mp hp) hq

theorem Standing.of_prefix {p q : Path} (h : fs.Standing p) (hq : q <+: p) : fs.Standing q :=
  fun r hr hp => h r hr (hp.trans hq)

theorem Standing.concat {p : Path} {m : FileName} (h : fs.Standing p)
    (hm : fs.lookup (p ++ [m]) = some .dir) : fs.Standing (p ++ [m]) := by
  intro q hq hp
  rcases List.prefix_concat_iff.mp hp with rfl | hp
  · exact hm
  · exact h q hq hp

theorem Standing.congr {p : Path} (h : fs.Standing p)
    (hsame : ∀ q, q <+: p → fs'.lookup q = fs.lookup q) : fs'.Standing p :=
  fun q hq hp => (hsame q hp).trans (h q hq hp)

theorem not_below_self {p : Path} {m : FileName} (rest : Path) : ¬p ++ m :: rest <+: p := by
  intro h
  have hlen := h.length_le
  simp at hlen

theorem child_off {dst : Path} (rest : Path) (m k : FileName) (hne : k ≠ m) : ¬dst ++ [m] <+: dst ++ k :: rest := by
  rw [List.prefix_append_right_inj]
  rintro ⟨l, hl⟩
  exact hne (List.cons.inj hl).1.symm

theorem Standing.isDir {p : Path} (h : fs.Standing p) : fs.isDir p = true := by
  unfold FileSystem.isDir
  by_cases hp : p = []
  · simp [hp]
  · simp [h p hp (List.prefix_refl _)]

theorem Standing.follow {p : Path} (h : fs.Standing p) (n : ℕ) (rest : List String) :
    fs.follow n [] (p.names ++ rest) = fs.follow n p rest :=
  follow_dirs n rest h

theorem locate_standing {p : Path} (h : fs.Standing p) : fs.locate p.names = .ok p := by
  have hf := h.follow maxLinks []
  rw [List.append_nil] at hf
  exact hf

theorem follow_child {p : Path} {m : FileName} (n : ℕ) (h : fs.Standing p)
    (hdir : fs.lookup (p ++ [m]) ≠ some .dir)
    (hlink : ∀ target, fs.lookup (p ++ [m]) ≠ some (.link target)) :
    fs.follow n [] (names (p ++ [m])) = .ok (p ++ [m]) := by
  rw [names, List.map_append]
  exact (h.follow n [m.1]).trans (follow_plain _ hdir hlink)

/-- What is found is reached by directories only. If it is none itself, the last element is a
name: its own, or that of a link to it. -/
def Found (fs : FileSystem) (raw : List String) (q : Path) : Prop :=
  fs.Standing q ∨ (∃ p m, q = p ++ [m] ∧ fs.Standing p ∧ fs.lookup q ≠ some .dir) ∧
    ∃ s, raw.getLast? = some s ∧ PlainName s

theorem Found.cons {raw : List String} {q : Path} (h : fs.Found raw q) (s : String) :
    fs.Found (s :: raw) q := by
  refine h.imp_right fun ⟨hq, t, ht, hplain⟩ => ⟨hq, t, ?_, hplain⟩
  rw [List.getLast?_cons, ht]
  rfl

theorem Found.append {raw : List String} {q : Path} {l : List String}
    (h : fs.Found (l ++ raw) q) (s : String) (hs : PlainName s) : fs.Found (s :: raw) q := by
  by_cases hraw : raw = []
  · exact h.imp_right fun ⟨hq, _⟩ => ⟨hq, s, by rw [hraw]; rfl, hs⟩
  · refine h.imp_right fun ⟨hq, t, ht, hplain⟩ => ⟨hq, t, ?_, hplain⟩
    rw [List.getLast?_append_of_ne_nil _ hraw] at ht
    rw [List.getLast?_cons, ht]
    rfl

theorem follow_found {n : ℕ} {cur q : Path} {raw : List String} (hcur : fs.Standing cur)
    (h : fs.follow n cur raw = .ok q) : fs.Found raw q := by
  have hwith : ∀ (next : Path → List String → Except Errno Path),
      (∀ cur raw q, fs.Standing cur → next cur raw = .ok q → fs.Found raw q) →
      ∀ raw cur q, fs.Standing cur → followWith next fs cur raw = .ok q → fs.Found raw q := by
    intro next hnext raw
    induction raw with
    | nil =>
      intro cur q hcur h
      cases h
      exact .inl hcur
    | cons s rest ih =>
      intro cur q hcur h
      by_cases hs : PlainName s
      · rw [followWith_plain next fs cur ⟨s, hs⟩] at h
        have hleaf : fs.lookup (cur ++ [⟨s, hs⟩]) ≠ some .dir → rest = [] →
            fs.Found (s :: rest) (cur ++ [⟨s, hs⟩]) := by
          rintro hne rfl
          exact .inr ⟨⟨cur, ⟨s, hs⟩, rfl, hcur, hne⟩, s, rfl, hs⟩
        cases hl : fs.lookup (cur ++ [⟨s, hs⟩]) with
        | none =>
          rw [hl] at h
          dsimp only at h
          split_ifs at h with hrest
          cases h
          exact hleaf (by simp [hl]) hrest
        | some node =>
          rw [hl] at h
          cases node with
          | dir => exact (ih _ q (hcur.concat hl) h).cons s
          | file content =>
            dsimp only at h
            split_ifs at h with hrest
            cases h
            exact hleaf (by simp [hl]) hrest
          | link target =>
            have hstart : fs.Standing (if isAbs target then [] else cur) := by
              split_ifs
              · exact standing_nil
              · exact hcur
            exact (hnext _ _ q hstart h).append s hs
      · rw [followWith, dif_neg hs] at h
        refine (ih _ q ?_ h).cons s
        split_ifs
        · exact hcur.of_prefix (List.dropLast_prefix cur)
        · exact hcur
  induction n generalizing cur q raw with
  | zero => exact hwith _ (fun _ _ _ _ h => by cases h) raw cur q hcur h
  | succ n ih => exact hwith _ (fun _ _ _ hcur h => ih hcur h) raw cur q hcur h

/-- What is there stays, but for the content of files. -/
def Keeps (fs fs' : FileSystem) : Prop :=
  ∀ p node, fs.lookup p = some node →
    fs'.lookup p = some node ∨ (∃ s, node = .file s) ∧ ∃ s, fs'.lookup p = some (.file s)

theorem Keeps.follow {n : ℕ} {cur q : Path} {raw : List String} (hk : fs.Keeps fs')
    (h : fs.follow n cur raw = .ok q) (hq : q ≠ [] → fs.lookup q ≠ none) :
    fs'.follow n cur raw = .ok q := by
  have hwith : ∀ (next next' : Path → List String → Except Errno Path),
      (∀ cur raw, next cur raw = .ok q → next' cur raw = .ok q) →
      ∀ raw cur, followWith next fs cur raw = .ok q → followWith next' fs' cur raw = .ok q := by
    intro next next' hnext raw
    induction raw with
    | nil => exact fun _ h => h
    | cons s rest ih =>
      intro cur h
      by_cases hs : PlainName s
      · rw [followWith_plain _ _ cur ⟨s, hs⟩] at h ⊢
        cases hl : fs.lookup (cur ++ [⟨s, hs⟩]) with
        | none =>
          rw [hl] at h
          dsimp only at h
          split_ifs at h
          cases h
          exact absurd hl (hq (List.append_ne_nil_of_right_ne_nil _ (List.cons_ne_nil _ _)))
        | some node =>
          rw [hl] at h
          rcases hk _ _ hl with hsame | ⟨⟨old, rfl⟩, new, hnew⟩
          · rw [hsame]
            cases node with
            | dir => exact ih _ h
            | file content => exact h
            | link target => exact hnext _ _ h
          · rw [hnew]
            exact h
      · rw [followWith, dif_neg hs] at h ⊢
        exact ih _ h
  induction n generalizing cur raw with
  | zero => exact hwith _ _ (fun _ _ h => by cases h) raw cur h
  | succ n ih => exact hwith _ _ (fun _ _ h => ih h) raw cur h

/-- What is there stays as it is. -/
def Extends (fs fs' : FileSystem) : Prop :=
  ∀ p node, fs.lookup p = some node → fs'.lookup p = some node

theorem Extends.keeps (h : fs.Extends fs') : fs.Keeps fs' := fun p node hp => .inl (h p node hp)

theorem Extends.standing {p : Path} (h : fs.Extends fs') (hp : fs.Standing p) : fs'.Standing p :=
  fun q hq hpre => h q .dir (hp q hq hpre)

theorem Extends.nodeAt {q : Path} {node : Node} (hx : fs.Extends fs')
    (h : fs.nodeAt q = some node) : fs'.nodeAt q = some node := by
  unfold FileSystem.nodeAt at h ⊢
  split_ifs at h ⊢
  · exact h
  · exact hx q node h

theorem stat_ok {raw : List String} {node : Node} :
    fs.stat raw = .ok node ↔ ∃ q, fs.locate raw = .ok q ∧ fs.nodeAt q = some node := by
  unfold stat
  cases fs.locate raw with
  | error e => simp
  | ok q =>
    cases h : fs.nodeAt q with
    | none => simp [h]
    | some n => simp [h]

theorem Extends.stat {raw : List String} {node : Node} (hx : fs.Extends fs')
    (h : fs.stat raw = .ok node) : fs'.stat raw = .ok node := by
  obtain ⟨q, hq, hnode⟩ := stat_ok.mp h
  refine stat_ok.mpr ⟨q, hx.keeps.follow hq fun hne hnone => ?_, hx.nodeAt hnode⟩
  rw [FileSystem.nodeAt, if_neg hne, hnone] at hnode
  cases hnode

theorem readAt_ok {raw : List String} {content : String} :
    fs.readAt raw = .ok content ↔ fs.stat raw = .ok (.file content) := by
  unfold readAt
  cases h : fs.stat raw with
  | error e => simp
  | ok node => cases node <;> simp

theorem Extends.readAt {raw : List String} {content : String} (hx : fs.Extends fs')
    (h : fs.readAt raw = .ok content) : fs'.readAt raw = .ok content :=
  readAt_ok.mpr (hx.stat (readAt_ok.mp h))

/-- A file is read under the name that the last element gives. -/
theorem readAt_last {raw : List String} {content : String} (h : fs.readAt raw = .ok content) :
    ∃ s, raw.getLast? = some s ∧ PlainName s := by
  obtain ⟨q, hq, hnode⟩ := stat_ok.mp (readAt_ok.mp h)
  rcases follow_found standing_nil hq with hdir | ⟨-, hlast⟩
  · unfold FileSystem.nodeAt at hnode
    split_ifs at hnode with hne
    · cases hnode
    · rw [hdir q hne (List.prefix_refl _)] at hnode
      cases hnode
  · exact hlast

theorem readAt_base {cwd : Path} {s content : String}
    (h : fs.readAt (absolute cwd s) = .ok content) : PlainName (base s) := by
  obtain ⟨c, hlast, hc⟩ := readAt_last h
  have hs : (components s).getLast? = some c := by
    unfold absolute at hlast
    split_ifs at hlast
    · exact hlast
    · rwa [List.getLast?_append_of_ne_nil _ (by simp [components, List.splitOn_ne_nil])] at hlast
  rw [base_of_last hs hc]
  exact hc

/-- A file that stands where its path leads. -/
theorem readAt_child {p : Path} {m : FileName} {content : String} (hp : fs.Standing p)
    (h : fs.lookup (p ++ [m]) = some (.file content)) :
    fs.readAt (names (p ++ [m])) = .ok content := by
  refine readAt_ok.mpr (stat_ok.mpr ⟨p ++ [m], follow_child _ hp (by simp [h]) (by simp [h]), ?_⟩)
  rw [FileSystem.nodeAt, if_neg (by simp), h]

/-- A file that is read through a link. -/
theorem readAt_link {p q : Path} {m k : FileName} {content : String} (hp : fs.Standing p)
    (hl : fs.lookup (p ++ [m]) = some (.link (text (q ++ [k])))) (hq : fs.Standing q)
    (h : fs.lookup (q ++ [k]) = some (.file content)) :
    fs.readAt (names (p ++ [m])) = .ok content := by
  refine readAt_ok.mpr (stat_ok.mpr ⟨q ++ [k], ?_, ?_⟩)
  · calc fs.locate (names (p ++ [m]))
        = fs.follow maxLinks [] (names p ++ [m.1]) := by rw [locate, names, List.map_append]; rfl
      _ = fs.follow maxLinks p [m.1] := hp.follow maxLinks [m.1]
      _ = fs.follow 39 (if isAbs (text (q ++ [k])) then [] else p)
            (components (text (q ++ [k])) ++ []) := follow_link 39 [] hl
      _ = fs.follow 39 [] (names (q ++ [k]) ++ []) := by rw [if_pos (isAbs_text _), follow_text]
      _ = .ok (q ++ [k]) := by
        rw [List.append_nil]
        exact follow_child 39 hq (by simp [h]) (by simp [h])
  · rw [FileSystem.nodeAt, if_neg (by simp), h]

/-- Names lead where they say while none of them is a link. -/
theorem followWith_linkless (next : Path → List String → Except Errno Path) {cur l q : Path}
    (hlinkless : ∀ rel, rel ≠ [] → rel <+: l → ∀ t, fs.lookup (cur ++ rel) ≠ some (.link t))
    (h : followWith next fs cur (names l) = .ok q) : q = cur ++ l := by
  induction l generalizing cur with
  | nil =>
    rw [List.append_nil]
    exact (Except.ok.inj h).symm
  | cons m l ih =>
    change followWith next fs cur (m.1 :: names l) = .ok q at h
    rw [followWith_plain] at h
    have hleaf : names l = [] → (.ok (cur ++ [m]) : Except Errno Path) = .ok q → q = cur ++ m :: l := by
      intro hnil hq
      rw [List.map_eq_nil_iff.mp hnil]
      exact (Except.ok.inj hq).symm
    cases hl : fs.lookup (cur ++ [m]) with
    | none =>
      rw [hl] at h
      dsimp only at h
      split_ifs at h with hnil
      exact hleaf hnil h
    | some node =>
      rw [hl] at h
      cases node with
      | dir =>
        have hq := ih (fun rel _ hrel t => by
          rw [List.append_assoc]
          exact hlinkless _ (List.cons_ne_nil m rel) (List.cons_prefix_cons.mpr ⟨rfl, hrel⟩) t) h
        rw [hq, List.append_assoc]
        rfl
      | file s =>
        dsimp only at h
        split_ifs at h with hnil
        exact hleaf hnil h
      | link t => exact absurd hl (hlinkless [m] (List.cons_ne_nil m []) (List.prefix_append [m] l) t)

theorem writeFile_linkless {p rel : Path} {content : String} (hp : fs.Standing p)
    (hlinkless : ∀ pre, pre ≠ [] → pre <+: rel → ∀ t, fs.lookup (p ++ pre) ≠ some (.link t))
    (h : writeFile content (p ++ rel) fs = some fs') :
    fs.isDir (p ++ rel) = false ∧ fs' = fs.insert (p ++ rel) (.file content) := by
  unfold writeFile at h
  split at h
  · cases h
  · rename_i q hq
    have hnames : names (p ++ rel) = names p ++ names rel := List.map_append
    rw [locate, hnames, hp.follow] at hq
    obtain rfl := followWith_linkless _ hlinkless hq
    split_ifs at h with hdir
    exact ⟨Bool.eq_false_iff.mpr hdir, (Option.some.inj h).symm⟩

theorem writeFile_child {p : Path} {m : FileName} (content : String) (hp : fs.Standing p)
    (h : fs.lookup (p ++ [m]) = none ∨ ∃ old, fs.lookup (p ++ [m]) = some (.file old)) :
    writeFile content (p ++ [m]) fs = some (fs.insert (p ++ [m]) (.file content)) := by
  have hne : fs.lookup (p ++ [m]) ≠ some .dir ∧ ∀ t, fs.lookup (p ++ [m]) ≠ some (.link t) := by
    rcases h with h | ⟨old, h⟩ <;> simp [h]
  unfold writeFile locate
  rw [follow_child _ hp hne.1 hne.2]
  dsimp only
  rw [if_neg (by simp [FileSystem.isDir, hne.1])]

theorem readDirAt_standing {p : Path} (hp : fs.Standing p) :
    ∃ l, fs.readDir p = some l ∧ l.Nodup ∧ (∀ n, n ∈ l ↔ p ++ [n] ∈ fs) ∧
      fs.readDirAt (names p) = .ok (l.map fun n => ⟨n, fs.isDir (p ++ [n])⟩) := by
  obtain ⟨l, hl, hn, hmem⟩ := readDir_some hp.isDir
  refine ⟨l, hl, hn, hmem, ?_⟩
  unfold readDirAt
  rw [locate_standing hp]
  dsimp only
  rw [hl]

end FileSystem
end Spade
