import Spade.Lib.Following

set_option autoImplicit false

/-!
# What is made along a path

Directories and files are made at path texts, element by element, and it is kept where. A place
is the text with `..` taken back, whatever links lead to.
-/
namespace Spade
open Path

/-- A file system, and the places at which something has been made in it or written to. -/
structure Making where
  fs : FileSystem
  made : List Path

namespace Making
open FileSystem

def lexical (raw : List String) : Path := raw.foldl push []

/-- A directory is made unless there is one. -/
def makeDir (raw : List String) (w : Making) : Option Making :=
  if w.fs.stat raw = .ok .dir then some w
  else match w.fs.locate raw.dropLast, raw.getLast? with
    | .ok p, some s =>
      if h : PlainName s then
        if w.fs.isDir p ∧ w.fs.lookup (p ++ [⟨s, h⟩]) = none then
          some ⟨w.fs.insert (p ++ [⟨s, h⟩]) .dir, w.made ++ [lexical raw]⟩
        else none
      else none
    | _, _ => none

/-- The rest of the elements, after those that are done. What has been made stays if it cannot go
on. -/
def makeDirs : List String → List String → Making → Making × Bool
  | _, [], w => (w, true)
  | done, s :: rest, w =>
    match makeDir (done ++ [s]) w with
    | none => (w, false)
    | some w => makeDirs (done ++ [s]) rest w

/-- `create_dir_all`. -/
def createDirAll (raw : List String) (w : Making) : Making × Bool := makeDirs [] raw w

/-- A file is made or replaced where the path leads. -/
def createFile (raw : List String) (content : String) (w : Making) : Option Making :=
  match w.fs.locate raw with
  | .error _ => none
  | .ok q =>
    if w.fs.nodeAt q = some .dir then none
    else some ⟨w.fs.insert q (.file content), w.made ++ [lexical raw]⟩

/-! Where things are made. -/

variable {w w' : Making} {raw done todo : List String} {p cur : Path}

theorem lexical_concat (raw : List String) (s : String) :
    lexical (raw ++ [s]) = push (lexical raw) s := by
  rw [lexical, List.foldl_append]
  rfl

theorem lexical_names (p q : Path) : lexical (p.names ++ q.names) = p ++ q := by
  have hnames : ∀ (q p : Path), q.names.foldl push p = p ++ q := by
    intro q
    induction q with
    | nil => exact fun p => (List.append_nil p).symm
    | cons m q ih =>
      intro p
      rw [names, List.map_cons, List.foldl_cons, push_plain m.2, ← names, ih]
      exact List.append_assoc p [m] q
  rw [lexical, List.foldl_append, hnames, hnames]
  rfl

theorem makeDir_made (h : makeDir raw w = some w') :
    w' = w ∨ w'.made = w.made ++ [lexical raw] := by
  unfold makeDir at h
  split_ifs at h with hdir
  · exact .inl (Option.some.inj h).symm
  · split at h
    · split_ifs at h
      exact .inr (congrArg made (Option.some.inj h).symm)
    · cases h

/-- Directories are made at the places that lead to the last one. -/
theorem makeDirs_made (h : p ∈ (makeDirs done todo w).1.made) :
    p ∈ w.made ∨ ∃ r, r ≠ [] ∧ r <+: todo ∧ p = lexical (done ++ r) := by
  induction todo generalizing done w with
  | nil => exact .inl h
  | cons s rest ih =>
    unfold makeDirs at h
    cases hs : makeDir (done ++ [s]) w with
    | none =>
      rw [hs] at h
      exact .inl h
    | some w₁ =>
      rw [hs] at h
      obtain hp | ⟨r, -, hr, rfl⟩ := ih h
      · obtain rfl | hmade := makeDir_made hs
        · exact .inl hp
        · rw [hmade, List.mem_append, List.mem_singleton] at hp
          exact hp.imp_right fun heq =>
            ⟨[s], List.cons_ne_nil s [], ⟨rest, rfl⟩, heq⟩
      · exact .inr ⟨s :: r, List.cons_ne_nil s r, List.cons_prefix_cons.mpr ⟨rfl, hr⟩,
          by rw [List.append_assoc]; rfl⟩

theorem createFile_made {content : String} (h : createFile raw content w = some w') :
    w'.made = w.made ++ [lexical raw] := by
  unfold createFile at h
  split at h
  · cases h
  · split_ifs at h
    exact congrArg made (Option.some.inj h).symm

/-! Paths on which there are only directories. -/

/-- Every element but `..` is that of a directory. -/
inductive Walks (fs : FileSystem) : List String → Path → Prop
  | nil : Walks fs [] []
  | other {raw : List String} {cur : Path} {s : String} (h : Walks fs raw cur)
      (hs : ¬PlainName s) : Walks fs (raw ++ [s]) (push cur s)
  | name {raw : List String} {cur : Path} (m : FileName) (h : Walks fs raw cur)
      (hm : fs.lookup (cur ++ [m]) = some .dir) : Walks fs (raw ++ [m.1]) (cur ++ [m])

variable {fs fs' : FileSystem}

theorem Walks.lexical_eq (h : Walks fs raw cur) : lexical raw = cur := by
  induction h with
  | nil => rfl
  | other h hs ih => rw [lexical_concat, ih]
  | name m h hm ih => rw [lexical_concat, ih, push_plain m.2]

theorem Walks.standing (h : Walks fs raw cur) : fs.Standing cur := by
  induction h with
  | nil => exact standing_nil
  | @other raw cur s h hs ih =>
    rw [push, dif_neg hs]
    split_ifs
    · exact ih.of_prefix (List.dropLast_prefix cur)
    · exact ih
  | name m h hm ih => exact ih.concat hm

theorem Walks.mono (h : Walks fs raw cur) (hx : fs.Extends fs') : Walks fs' raw cur := by
  induction h with
  | nil => exact .nil
  | other h hs ih => exact .other ih hs
  | name m h hm ih => exact .name m ih (hx _ _ hm)

/-- The path leads on from where the walk ends. -/
theorem Walks.follow (h : Walks fs raw cur) (n : ℕ) (rest : List String) :
    fs.follow n [] (raw ++ rest) = fs.follow n cur rest := by
  induction h generalizing rest with
  | nil => rfl
  | @other raw cur s h hs ih =>
    have hnext : ∀ next, followWith next fs cur (s :: rest) =
        followWith next fs (push cur s) rest := fun next => by
      rw [followWith, dif_neg hs, push, dif_neg hs]
    rw [List.append_assoc, ih]
    cases n <;> exact hnext _
  | @name raw cur m h hm ih =>
    rw [List.append_assoc, ih]
    refine follow_dirs (l := [m]) n rest fun q hq hpre => ?_
    obtain rfl | hnil := List.prefix_concat_iff.mp (List.nil_append [m] ▸ hpre)
    · exact hm
    · exact absurd (List.prefix_nil.mp hnil) hq

theorem Walks.locate (h : Walks fs raw cur) : fs.locate raw = .ok cur := by
  have hf := h.follow maxLinks []
  rw [List.append_nil] at hf
  exact hf

theorem Walks.nodeAt (h : Walks fs raw cur) : fs.nodeAt cur = some .dir := by
  unfold FileSystem.nodeAt
  split_ifs with hcur
  · rfl
  · exact h.standing cur hcur (List.prefix_refl cur)

theorem Walks.stat (h : Walks fs raw cur) : fs.stat raw = .ok .dir := by
  simp only [FileSystem.stat, h.locate, h.nodeAt]

theorem Walks.locate_name (h : Walks fs raw cur) {m : FileName}
    (hdir : fs.lookup (cur ++ [m]) ≠ some .dir)
    (hlink : ∀ target, fs.lookup (cur ++ [m]) ≠ some (.link target)) :
    fs.locate (raw ++ [m.1]) = .ok (cur ++ [m]) := by
  rw [FileSystem.locate, h.follow, follow_plain maxLinks hdir hlink]

/-! One element after a walk. -/

theorem makeDir_other (h : Walks w.fs done cur) {s : String} (hs : ¬PlainName s) :
    makeDir (done ++ [s]) w = some w :=
  if_pos (h.other hs).stat

theorem makeDir_dir (h : Walks w.fs done cur) {m : FileName}
    (hm : w.fs.lookup (cur ++ [m]) = some .dir) : makeDir (done ++ [m.1]) w = some w :=
  if_pos (h.name m hm).stat

theorem makeDir_none (h : Walks w.fs done cur) {m : FileName}
    (hm : w.fs.lookup (cur ++ [m]) = none) : makeDir (done ++ [m.1]) w =
      some ⟨w.fs.insert (cur ++ [m]) .dir, w.made ++ [cur ++ [m]]⟩ := by
  have hstat : w.fs.stat (done ++ [m.1]) ≠ .ok .dir := by
    rw [FileSystem.stat, h.locate_name (by rw [hm]; exact nofun) (by rw [hm]; exact nofun)]
    simp [FileSystem.nodeAt, hm]
  unfold makeDir
  rw [if_neg hstat, List.dropLast_concat, List.getLast?_concat, h.locate]
  simp only
  rw [dif_pos m.2, if_pos ⟨h.standing.isDir, hm⟩, lexical_concat, h.lexical_eq, push_plain m.2]

theorem makeDir_file (h : Walks w.fs done cur) {m : FileName} {content : String}
    (hm : w.fs.lookup (cur ++ [m]) = some (.file content)) : makeDir (done ++ [m.1]) w = none := by
  have hstat : w.fs.stat (done ++ [m.1]) ≠ .ok .dir := by
    rw [FileSystem.stat, h.locate_name (by simp [hm]) (by simp [hm])]
    simp [FileSystem.nodeAt, hm]
  unfold makeDir
  rw [if_neg hstat, List.dropLast_concat, List.getLast?_concat, h.locate]
  simp only
  rw [dif_pos m.2, if_neg (by simp [hm])]

theorem createFile_name (h : Walks w.fs done cur) {m : FileName} (content : String)
    (hdir : w.fs.lookup (cur ++ [m]) ≠ some .dir)
    (hlink : ∀ target, w.fs.lookup (cur ++ [m]) ≠ some (.link target)) :
    createFile (done ++ [m.1]) content w =
      some ⟨w.fs.insert (cur ++ [m]) (.file content), w.made ++ [cur ++ [m]]⟩ := by
  have hnode : w.fs.nodeAt (cur ++ [m]) ≠ some .dir := by
    rwa [FileSystem.nodeAt, if_neg (List.append_ne_nil_of_right_ne_nil _ (List.cons_ne_nil m []))]
  unfold createFile
  rw [h.locate_name hdir hlink]
  simp only
  rw [if_neg hnode, lexical_concat, h.lexical_eq, push_plain m.2]

/-- Nothing is written where there is a directory. -/
theorem createFile_walk (h : Walks w.fs raw cur) (content : String) :
    createFile raw content w = none := by
  unfold createFile
  rw [h.locate]
  simp only
  rw [if_pos h.nodeAt]

theorem walks_names (h : fs.Standing p) : Walks fs p.names p := by
  induction p using List.reverseRecOn with
  | nil => exact .nil
  | append_singleton p m ih =>
    have hp := h.of_prefix (List.prefix_append p [m])
    rw [names, List.map_append]
    exact .name m (ih hp) (h _ (List.append_ne_nil_of_right_ne_nil _ (List.cons_ne_nil m []))
      (List.prefix_refl _))

/-! All the elements of a path. -/

theorem makeDirs_mono (h : p ∈ w.made) : p ∈ (makeDirs done todo w).1.made := by
  induction todo generalizing done w with
  | nil => exact h
  | cons s rest ih =>
    unfold makeDirs
    cases hs : makeDir (done ++ [s]) w with
    | none => exact h
    | some w₁ =>
      refine ih ?_
      obtain rfl | hmade := makeDir_made hs
      · exact h
      · rw [hmade]
        exact List.mem_append_left _ h

/-- On directories nothing is made. -/
theorem makeDirs_of_stat (h : ∀ r, r ≠ [] → r <+: todo → w.fs.stat (done ++ r) = .ok .dir) :
    makeDirs done todo w = (w, true) := by
  induction todo generalizing done with
  | nil => rfl
  | cons s rest ih =>
    have hs := h [s] (List.cons_ne_nil s []) ⟨rest, rfl⟩
    unfold makeDirs
    rw [makeDir, if_pos hs]
    refine ih fun r hr hpre => ?_
    rw [List.append_assoc]
    exact h (s :: r) (List.cons_ne_nil s r) (List.cons_prefix_cons.mpr ⟨rfl, hpre⟩)

theorem createDirAll_standing (h : w.fs.Standing p) : createDirAll p.names w = (w, true) := by
  refine makeDirs_of_stat fun r _ hr => ?_
  obtain ⟨t, ht⟩ := hr
  obtain ⟨a, b, hab, rfl, rfl⟩ := List.map_eq_append_iff.mp ht.symm
  exact (walks_names (h.of_prefix (hab ▸ List.prefix_append a b))).stat

/-- Where no link is, the walk goes on with the directory that is there or is made, or it ends at
a file. -/
theorem makeDir_step (h : Walks w.fs done cur) (s : String)
    (hlink : ∀ t, w.fs.lookup (push cur s) ≠ some (.link t)) :
    (∃ w₁, makeDir (done ++ [s]) w = some w₁ ∧ Walks w₁.fs (done ++ [s]) (push cur s) ∧
      (w₁ = w ∨ w.fs.lookup (push cur s) = none ∧
        w₁ = ⟨w.fs.insert (push cur s) .dir, w.made ++ [push cur s]⟩)) ∨
    (makeDir (done ++ [s]) w = none ∧ ∃ c, w.fs.lookup (push cur s) = some (.file c)) := by
  by_cases hs : PlainName s
  · rw [push_plain hs] at hlink ⊢
    cases hm : w.fs.lookup (cur ++ [⟨s, hs⟩]) with
    | none =>
      have hx : w.fs.Extends (w.fs.insert (cur ++ [⟨s, hs⟩]) .dir) := fun q node hq => by
        rw [GoMap.lookup_insert_if, if_neg (fun heq => by rw [heq, hm] at hq; cases hq), hq]
      exact .inl ⟨_, makeDir_none h hm,
        .name ⟨s, hs⟩ (h.mono hx) (by rw [GoMap.lookup_insert_if, if_pos rfl]), .inr ⟨rfl, rfl⟩⟩
    | some node =>
      cases node with
      | dir => exact .inl ⟨w, makeDir_dir h hm, .name ⟨s, hs⟩ h hm, .inl rfl⟩
      | file c => exact .inr ⟨makeDir_file h hm, c, rfl⟩
      | link t => exact absurd hm (hlink t)
  · exact .inl ⟨w, makeDir_other h hs, h.other hs, .inl rfl⟩

/-- What a step leaves at places that are taken. -/
theorem lookup_step {w₁ : Making} {place q : Path} {node : Node}
    (h : w₁ = w ∨ w.fs.lookup place = none ∧
      w₁ = ⟨w.fs.insert place .dir, w.made ++ [place]⟩) :
    (w.fs.lookup q = some node → w₁.fs.lookup q = some node) ∧
      (w₁.fs.lookup q = some node → w.fs.lookup q = some node ∨ node = .dir) := by
  obtain rfl | ⟨hnone, rfl⟩ := h
  · exact ⟨id, .inl⟩
  · simp only [GoMap.lookup_insert_if]
    split_ifs with hq
    · refine ⟨fun hnode => ?_, fun hnode => .inr (Option.some.inj hnode).symm⟩
      rw [hq, hnone] at hnode
      cases hnode
    · exact ⟨id, .inl⟩

/-- There is no link at the places of a path after what is done. -/
def Linkless (fs : FileSystem) (done todo : List String) : Prop :=
  ∀ r, r ≠ [] → r <+: todo → ∀ t, fs.lookup (lexical (done ++ r)) ≠ some (.link t)

theorem Linkless.head {s : String} (h : Linkless w.fs done (s :: todo))
    (hw : Walks w.fs done cur) (t : String) : w.fs.lookup (push cur s) ≠ some (.link t) := by
  have hs := h [s] (List.cons_ne_nil s []) ⟨todo, rfl⟩ t
  rwa [lexical_concat, hw.lexical_eq] at hs

theorem Linkless.tail {s : String} {w₁ : Making} {place : Path}
    (h : Linkless w.fs done (s :: todo))
    (hstep : w₁ = w ∨ w.fs.lookup place = none ∧
      w₁ = ⟨w.fs.insert place .dir, w.made ++ [place]⟩) :
    Linkless w₁.fs (done ++ [s]) todo := by
  intro r hr hpre t ht
  have hcons : done ++ [s] ++ r = done ++ s :: r := by rw [List.append_assoc]; rfl
  obtain hold | hdir := (lookup_step hstep).2 ht
  · rw [hcons] at hold
    exact h (s :: r) (List.cons_ne_nil s r) (List.cons_prefix_cons.mpr ⟨rfl, hpre⟩) t hold
  · cases hdir

/-- A walk that is made to the end. -/
theorem makeDirs_ok (h : Walks w.fs done cur) (hlink : Linkless w.fs done todo)
    (hok : (makeDirs done todo w).2 = true) :
    Walks (makeDirs done todo w).1.fs (done ++ todo) (lexical (done ++ todo)) ∧
      ∀ q node, (makeDirs done todo w).1.fs.lookup q = some node →
        w.fs.lookup q = some node ∨ node = .dir := by
  induction todo generalizing done cur w with
  | nil =>
    rw [List.append_nil, h.lexical_eq]
    exact ⟨h, fun _ _ => .inl⟩
  | cons s rest ih =>
    unfold makeDirs at hok ⊢
    obtain ⟨w₁, hs, hwalk, hstep⟩ | ⟨hs, -⟩ := makeDir_step h s (hlink.head h)
    · rw [hs] at hok ⊢
      obtain ⟨hend, hnodes⟩ := ih hwalk (hlink.tail hstep) hok
      rw [List.append_assoc] at hend
      refine ⟨hend, fun q node hq => ?_⟩
      obtain hq | hdir := hnodes q node hq
      · exact (lookup_step hstep).2 hq
      · exact .inr hdir
    · rw [hs] at hok
      cases hok

/-- A walk that comes to a file ends there. -/
theorem makeDirs_blocked {b : List String} (h : Walks w.fs done cur) (hb : b <+: todo)
    (hlink : Linkless w.fs done b) {c : String} (hfile : w.fs.lookup (lexical (done ++ b)) = some (.file c))
    (hne : lexical (done ++ b) ≠ []) :
    (makeDirs done todo w).2 = false ∧ ∀ p ∈ (makeDirs done todo w).1.made,
      p ∈ w.made ∨ ∃ r, r <+: b ∧ p = lexical (done ++ r) := by
  induction b generalizing todo done cur w with
  | nil =>
    rw [List.append_nil, h.lexical_eq] at hfile hne
    rw [h.standing cur hne (List.prefix_refl cur)] at hfile
    cases hfile
  | cons s b ih =>
    obtain ⟨rest, rfl⟩ := hb
    rw [List.cons_append]
    unfold makeDirs
    obtain ⟨w₁, hs, hwalk, hstep⟩ | ⟨hs, -⟩ := makeDir_step h s (hlink.head h)
    · have hcons : ∀ r, done ++ [s] ++ r = done ++ s :: r := fun r => by
        rw [List.append_assoc]; rfl
      rw [hs]
      obtain ⟨hfalse, hmade⟩ := ih hwalk (List.prefix_append b rest)
        (hlink.tail hstep) (by rw [hcons]; exact (lookup_step hstep).1 hfile) (hcons b ▸ hne)
      refine ⟨hfalse, fun p hp => ?_⟩
      obtain hearly | ⟨r, hr, rfl⟩ := hmade p hp
      · obtain rfl | ⟨-, rfl⟩ := hstep
        · exact .inl hearly
        · obtain hold | hnew := List.mem_append.mp hearly
          · exact .inl hold
          · refine .inr ⟨[s], List.cons_prefix_cons.mpr ⟨rfl, List.nil_prefix⟩, ?_⟩
            rw [lexical_concat, h.lexical_eq]
            exact List.mem_singleton.mp hnew
      · exact .inr ⟨s :: r, List.cons_prefix_cons.mpr ⟨rfl, hr⟩, by rw [hcons]⟩
    · rw [hs]
      exact ⟨rfl, fun p hp => .inl hp⟩

/-- What is missing on the way is made if there is nothing but directories before it. -/
theorem makeDirs_missing {r : List String} (h : Walks w.fs done cur) (hr : r <+: todo)
    (hdirs : ∀ r' node, r' ≠ [] → r' <+: r → w.fs.lookup (lexical (done ++ r')) = some node →
      node = .dir)
    (hnone : w.fs.lookup (lexical (done ++ r)) = none ∨ lexical (done ++ r) ∈ w.made)
    (hne : lexical (done ++ r) ≠ []) :
    lexical (done ++ r) ∈ (makeDirs done todo w).1.made := by
  induction r generalizing todo done cur w with
  | nil =>
    rw [List.append_nil, h.lexical_eq] at hnone hne ⊢
    rw [h.standing cur hne (List.prefix_refl cur)] at hnone
    exact makeDirs_mono (hnone.resolve_left (Option.some_ne_none _))
  | cons s r ih =>
    obtain ⟨rest, rfl⟩ := hr
    have hcons : ∀ r, done ++ [s] ++ r = done ++ s :: r := fun r => by
      rw [List.append_assoc]; rfl
    have hplace : ∀ node, w.fs.lookup (push cur s) = some node → node = .dir := by
      intro node hnode
      refine hdirs [s] node (List.cons_ne_nil s []) (List.cons_prefix_cons.mpr ⟨rfl, List.nil_prefix⟩) ?_
      rwa [lexical_concat, h.lexical_eq]
    rw [List.cons_append]
    unfold makeDirs
    obtain ⟨w₁, hs, hwalk, hstep⟩ | ⟨-, c, hc⟩ :=
      makeDir_step h s fun t ht => absurd (hplace _ ht) (by simp)
    · rw [hs]
      have hmem := ih hwalk (List.prefix_append r rest) ?_ ?_
        ((hcons r).symm ▸ hne)
      · rwa [hcons] at hmem
      · intro r' node hr' hpre hnode
        rw [hcons] at hnode
        obtain hold | hdir := (lookup_step hstep).2 hnode
        · exact hdirs (s :: r') node (List.cons_ne_nil s r')
            (List.cons_prefix_cons.mpr ⟨rfl, hpre⟩) hold
        · exact hdir
      · rw [hcons]
        obtain rfl | ⟨-, rfl⟩ := hstep
        · exact hnone
        · simp only [GoMap.lookup_insert_if, List.mem_append, List.mem_singleton]
          split_ifs with heq
          · exact .inr (.inr heq)
          · exact hnone.imp_right Or.inl
    · exact absurd (hplace _ hc) (by simp)

end Making

end Spade
