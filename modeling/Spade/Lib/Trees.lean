import Spade.Lib.Following

set_option autoImplicit false

/-!
# Directory trees

What stands below a directory, by the path from there; a link in a tree stands for the file
that it leads to.
-/
namespace Spade.FileSystem
open Path

/-- What stands at the end of a way through directories. -/
def branch (fs : FileSystem) : Path → Path → Option Node
  | _, [] => some .dir
  | dir, m :: rest =>
    match fs.lookup (dir ++ [m]) with
    | some .dir => branch fs (dir ++ [m]) rest
    | node => if rest = [] then node else none

def tree (fs : FileSystem) (dir rel : Path) : Option Node :=
  match fs.branch dir rel with
  | some (.link _) =>
    match fs.readAt (names (dir ++ rel)) with
    | .ok s => some (.file s)
    | .error _ => none
  | node => node

variable {fs fs' : FileSystem} {dir rel : Path}

theorem branch_dir_cons {m : FileName} (h : fs.lookup (dir ++ [m]) = some .dir) (rest : Path) :
    fs.branch dir (m :: rest) = fs.branch (dir ++ [m]) rest := by
  rw [branch, h]

theorem branch_leaf_cons {m : FileName} (h : fs.lookup (dir ++ [m]) ≠ some .dir) (rest : Path) :
    fs.branch dir (m :: rest) = if rest = [] then fs.lookup (dir ++ [m]) else none := by
  rw [branch]
  cases hl : fs.lookup (dir ++ [m]) with
  | none => rfl
  | some node =>
    cases node with
    | dir => exact absurd hl h
    | file s => rfl
    | link t => rfl

theorem tree_dir_cons {m : FileName} (h : fs.lookup (dir ++ [m]) = some .dir) (rest : Path) :
    fs.tree dir (m :: rest) = fs.tree (dir ++ [m]) rest := by
  unfold tree
  rw [branch_dir_cons h, List.append_assoc]
  rfl

theorem tree_nil : fs.tree dir [] = some .dir := rfl

theorem branch_lookup {node : Node} (h : fs.branch dir rel = some node) (hrel : rel ≠ []) :
    fs.lookup (dir ++ rel) = some node := by
  induction rel generalizing dir with
  | nil => exact absurd rfl hrel
  | cons m rest ih =>
    by_cases hd : fs.lookup (dir ++ [m]) = some .dir
    · rw [branch_dir_cons hd] at h
      by_cases hrest : rest = []
      · subst hrest
        rw [hd, ← h]
        rfl
      · have hl := ih h hrest
        rwa [List.append_assoc] at hl
    · rw [branch_leaf_cons hd] at h
      split_ifs at h with hrest
      rw [hrest]
      exact h

/-- The way to what stands in a tree leads through directories. -/
theorem branch_parent {m : FileName} (h : fs.branch dir (rel ++ [m]) ≠ none) :
    fs.branch dir rel = some .dir := by
  induction rel generalizing dir with
  | nil => rfl
  | cons k rest ih =>
    by_cases hd : fs.lookup (dir ++ [k]) = some .dir
    · rw [List.cons_append, branch_dir_cons hd] at h
      rw [branch_dir_cons hd]
      exact ih h
    · rw [List.cons_append, branch_leaf_cons hd, if_neg (by simp)] at h
      exact absurd rfl h

theorem branch_standing (hdir : fs.Standing dir) (h : fs.branch dir rel = some .dir) :
    fs.Standing (dir ++ rel) := by
  induction rel generalizing dir with
  | nil => rwa [List.append_nil]
  | cons m rest ih =>
    by_cases hd : fs.lookup (dir ++ [m]) = some .dir
    · rw [branch_dir_cons hd] at h
      have hrest := ih (hdir.concat hd) h
      rwa [List.append_assoc] at hrest
    · rw [branch_leaf_cons hd] at h
      split_ifs at h
      exact absurd h hd

/-- A file of the tree is read where it stands. -/
theorem readAt_branch {s : String} (hdir : fs.Standing dir)
    (h : fs.branch dir rel = some (.file s)) : fs.readAt (names (dir ++ rel)) = .ok s := by
  cases rel using List.reverseRecOn with
  | nil => cases h
  | append_singleton rel m =>
    have hparent := branch_standing hdir (branch_parent (by rw [h]; simp))
    have hl := branch_lookup h (by simp)
    rw [← List.append_assoc] at hl ⊢
    exact readAt_child hparent hl

theorem tree_dir : fs.tree dir rel = some .dir ↔ fs.branch dir rel = some .dir := by
  unfold tree
  cases hb : fs.branch dir rel with
  | none => rfl
  | some node =>
    cases node with
    | dir => simp
    | file s => simp
    | link t => cases fs.readAt (names (dir ++ rel)) <;> simp

theorem tree_not_link (t : String) : fs.tree dir rel ≠ some (.link t) := by
  unfold tree
  cases hb : fs.branch dir rel with
  | none => simp
  | some node =>
    cases node with
    | dir => simp
    | file s => simp
    | link t => cases fs.readAt (names (dir ++ rel)) <;> simp

theorem tree_none (h : fs.branch dir rel = none) : fs.tree dir rel = none := by
  rw [tree, h]

theorem tree_parent {m : FileName} (h : fs.tree dir (rel ++ [m]) ≠ none) :
    fs.tree dir rel = some .dir :=
  tree_dir.mpr (branch_parent fun hb => h (tree_none hb))

theorem branch_congr (h : ∀ rel, rel ≠ [] → fs'.lookup (dir ++ rel) = fs.lookup (dir ++ rel)) :
    fs'.branch dir rel = fs.branch dir rel := by
  induction rel generalizing dir with
  | nil => rfl
  | cons m rest ih =>
    have hm := h [m] (List.cons_ne_nil _ _)
    by_cases hd : fs.lookup (dir ++ [m]) = some .dir
    · rw [branch_dir_cons hd, branch_dir_cons (hm.trans hd)]
      refine ih fun rel hrel => ?_
      rw [List.append_assoc]
      exact h _ (List.cons_ne_nil _ _)
    · rw [branch_leaf_cons hd, branch_leaf_cons (by rwa [hm]), hm]

theorem tree_congr (h : ∀ rel, rel ≠ [] → fs'.lookup (dir ++ rel) = fs.lookup (dir ++ rel))
    (hlinks : ∀ rel t, fs.branch dir rel = some (.link t) →
      fs'.readAt (names (dir ++ rel)) = fs.readAt (names (dir ++ rel))) :
    fs'.tree dir rel = fs.tree dir rel := by
  unfold tree
  rw [branch_congr h]
  cases hb : fs.branch dir rel with
  | none => rfl
  | some node =>
    cases node with
    | dir => rfl
    | file s => rfl
    | link t =>
      dsimp only
      rw [hlinks rel t hb]

/-- A tree of directories and files, by itself. -/
structure Closed (T : Path → Option Node) : Prop where
  root : T [] = some .dir
  parent : ∀ rel m, T (rel ++ [m]) ≠ none → T rel = some .dir
  linkless : ∀ rel t, T rel ≠ some (.link t)

theorem tree_closed : Closed (fs.tree dir) :=
  ⟨tree_nil, fun _ _ => tree_parent, fun _ => tree_not_link⟩

/-- Where the nodes below a directory are a tree, that tree stands there. -/
theorem Closed.branch_eq {T : Path → Option Node} (hT : Closed T) (pre : Path)
    (h : ∀ rel, fs.lookup (dir ++ rel) = T (pre ++ rel)) (hpre : T pre = some .dir) (rel : Path) :
    fs.branch dir rel = T (pre ++ rel) := by
  induction rel generalizing dir pre with
  | nil =>
    rw [List.append_nil, hpre]
    rfl
  | cons m rest ih =>
    have hm := h [m]
    by_cases hd : fs.lookup (dir ++ [m]) = some .dir
    · rw [branch_dir_cons hd, ih (pre ++ [m]) (fun rel => ?_) (hm ▸ hd)]
      · rw [List.append_assoc]
        rfl
      · rw [List.append_assoc, List.append_assoc]
        exact h _
    · rw [branch_leaf_cons hd]
      split_ifs with hrest
      · rw [hrest, hm]
      · symm
        by_contra hne
        have hdirs : ∀ l : Path, T (pre ++ m :: l) ≠ none → l ≠ [] → T (pre ++ [m]) = some .dir := by
          intro l
          induction l using List.reverseRecOn with
          | nil => exact fun _ hl => absurd rfl hl
          | append_singleton l k ihl =>
            intro hl _
            have hparent := hT.parent (pre ++ m :: l) k (by simpa using hl)
            by_cases hnil : l = []
            · rw [hnil] at hparent
              exact hparent
            · exact ihl (by simp [hparent]) hnil
        exact hd (hm.trans (hdirs rest hne hrest))

theorem Closed.tree_eq {T : Path → Option Node} (hT : Closed T)
    (h : ∀ rel, fs.lookup (dir ++ rel) = T rel) (rel : Path) : fs.tree dir rel = T rel := by
  have hb := hT.branch_eq [] h hT.root rel
  unfold tree
  rw [hb]
  cases hn : T rel with
  | none => simp [hn]
  | some node =>
    cases node with
    | dir => simp [hn]
    | file s => simp [hn]
    | link t => exact absurd hn (hT.linkless rel t)

end Spade.FileSystem
