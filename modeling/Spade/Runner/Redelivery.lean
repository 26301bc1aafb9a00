import Spade.Core.Samples
import Spade.Runner.Inputs

set_option autoImplicit false

/-!
# A second attempt at an invocation

An attempt makes the links of its inputs, and fails at the first of them that is there
already. A second attempt gets through if and only if the first has made none.
-/
namespace Spade
open UUIDPackage Disk
variable [UUIDPackage] {yamlExpansion : String → Option ExpansionManifest}

namespace InputContext
variable {c : InputContext} {fs : FileSystem} {d d' : Disk}

/-! The directory of the invocation. -/

/-- What `CreateBlockDirectory` makes. -/
def DirOf (c : InputContext) (q : Path) : Prop :=
  q ≠ [] ∧ ∃ sub ∈ ["", "inputs", "outputs", "logs"], q <+: c.workDir.join sub

theorem create_ok (h : createBlockDirectory c.invocation.invocationID c.pipelineDir d = .ok d') :
    (∀ q, c.DirOf q → d.fs.lookup q = none ∨ d.fs.lookup q = some .dir) ∧
    (∀ q, c.DirOf q → d'.fs.lookup q = some .dir) ∧
    ∀ q, ¬c.DirOf q → d'.fs.lookup q = d.fs.lookup q := by
  unfold createBlockDirectory at h
  unfold DirOf workDir
  generalize ["", "inputs", "outputs", "logs"] = subs at h ⊢
  induction subs generalizing d with
  | nil =>
    cases h
    exact ⟨fun q hq => (by simpa using hq.2), fun q hq => (by simpa using hq.2), fun _ _ => rfl⟩
  | cons sub subs ih =>
    rw [List.foldlM_cons] at h
    cases hw : d.write (FileSystem.mkdirAll
      ((c.pipelineDir.join c.invocation.invocationID).join sub)) with
    | error stop =>
      rw [hw] at h
      cases h
    | ok d₁ =>
      rw [hw] at h
      have hmk := write_ok hw
      have hl := FileSystem.mkdirAll_lookup hmk
      obtain ⟨hfree, hdir, hsame⟩ := ih h
      refine ⟨?_, ?_, ?_⟩
      · rintro q ⟨hq, sub', hsub', hp⟩
        rcases List.mem_cons.mp hsub' with rfl | hsub'
        · exact FileSystem.mkdirAll_free hmk hq hp
        · have hq₁ := hfree q ⟨hq, sub', hsub', hp⟩
          rw [hl] at hq₁
          split_ifs at hq₁ with hpre
          · exact FileSystem.mkdirAll_free hmk hq hpre.2
          · exact hq₁
      · rintro q ⟨hq, sub', hsub', hp⟩
        by_cases hrest : q ≠ [] ∧ ∃ sub ∈ subs,
            q <+: (c.pipelineDir.join c.invocation.invocationID).join sub
        · exact hdir q hrest
        · rw [hsame q hrest, hl, if_pos]
          rcases List.mem_cons.mp hsub' with rfl | hsub'
          · exact ⟨hq, hp⟩
          · exact absurd ⟨hq, sub', hsub', hp⟩ hrest
      · intro q hq
        rw [hsame q fun hr => hq ⟨hr.1, hr.2.imp fun _ h => ⟨List.mem_cons_of_mem _ h.1, h.2⟩⟩, hl,
          if_neg fun hp => hq ⟨hp.1, sub, List.mem_cons_self, hp.2⟩]

theorem create_made (hb : d.budget = none)
    (h : ∀ q, c.DirOf q → d.fs.lookup q = none ∨ d.fs.lookup q = some .dir) :
    ∃ d', createBlockDirectory c.invocation.invocationID c.pipelineDir d = .ok d' ∧
      d'.budget = none := by
  unfold createBlockDirectory
  unfold DirOf workDir at h
  generalize ["", "inputs", "outputs", "logs"] = subs at h ⊢
  induction subs generalizing d with
  | nil => exact ⟨d, rfl, hb⟩
  | cons sub subs ih =>
    obtain ⟨fs', hfs⟩ : ∃ fs', FileSystem.mkdirAll
        ((c.pipelineDir.join c.invocation.invocationID).join sub) d.fs = some fs' :=
      FileSystem.mkdirAll_ok fun q hq hp => h q ⟨hq, sub, List.mem_cons_self, hp⟩
    rw [List.foldlM_cons, write_unbounded hb hfs]
    refine ih rfl fun q hq => ?_
    dsimp only
    rw [FileSystem.mkdirAll_lookup hfs]
    split_ifs
    · exact .inr rfl
    · exact h q ⟨hq.1, hq.2.imp fun _ h => ⟨List.mem_cons_of_mem _ h.1, h.2⟩⟩

/-- Some of the directories have been made. -/
def Begun (c : InputContext) (start fs : FileSystem) : Prop :=
  ∀ q, fs.lookup q = start.lookup q ∨
    c.DirOf q ∧ start.lookup q = none ∧ fs.lookup q = some .dir

theorem begun_create (d : Disk) : c.Begun d.fs
    (left (createBlockDirectory c.invocation.invocationID c.pipelineDir d)) := by
  unfold createBlockDirectory
  refine left_foldlM (P := c.Begun d.fs) ?_ fun _ => .inl rfl
  intro d₁ sub hsub hd
  refine left_write (P := c.Begun d.fs) hd fun fs' hfs q => ?_
  rw [FileSystem.mkdirAll_lookup hfs]
  split_ifs with hp
  · rcases FileSystem.mkdirAll_free hfs hp.1 hp.2 with hfree | hfree
    · rcases hd q with hq | ⟨-, -, hq⟩
      · exact .inr ⟨⟨hp.1, sub, hsub, hp.2⟩, hq ▸ hfree, rfl⟩
      · rw [hfree] at hq
        cases hq
    · rcases hd q with hq | ⟨hdir, hnone, -⟩
      · exact .inl (hfree.symm.trans hq)
      · exact .inr ⟨hdir, hnone, rfl⟩
  · exact hd q

theorem not_below_dir (hids : PlainIDs) {q : Path} (hq : c.DirOf q) : ¬c.Below q := by
  obtain ⟨-, sub, hsub, hp⟩ := hq
  obtain ⟨n, hw, hi⟩ := workDir_eq (c := c) hids
  rintro ⟨hb, hne⟩
  simp only [List.mem_cons, List.not_mem_nil, or_false] at hsub
  rcases hsub with rfl | rfl | rfl | rfl
  · rw [Path.join_empty, hw] at hp
    have hlen := (hb.trans hp).length_le
    rw [hi] at hlen
    simp at hlen
  · exact hne (hp.eq_of_length_le hb.length_le)
  · have hboth := hb.trans hp
    rw [join_outputs, hw, hi, List.append_assoc, List.prefix_append_right_inj] at hboth
    simp [inputsName, outputsName] at hboth
  · have hboth := hb.trans hp
    rw [show c.workDir.join "logs" = c.workDir ++ [⟨"logs", by decide⟩] from
      Path.join_plain (by decide) _, hw, hi, List.append_assoc, List.prefix_append_right_inj] at hboth
    simp [inputsName] at hboth

theorem workDir_below {q : Path} (h : c.Below q) : c.workDir <+: q := by
  have hi : c.workDir <+: c.inputsDir := by
    rw [inputsDir, join_inputs]
    exact List.prefix_append _ _
  exact hi.trans h.1

theorem made_create (hids : PlainIDs) (hfresh : ∀ q, c.workDir <+: q → d.fs.lookup q = none)
    (h : createBlockDirectory c.invocation.invocationID c.pipelineDir d = .ok d') :
    c.Made d'.fs := by
  obtain ⟨-, hdir, hsame⟩ := create_ok h
  constructor
  · exact fun q hq hp => hdir q ⟨hq, "inputs", by simp, hp⟩
  · intro q hq
    rw [hsame q fun h => not_below_dir hids h hq]
    exact hfresh q (workDir_below hq)

variable {base : FileSystem} {es : List (String × ResolvedInput)}

/-- What an attempt can leave. -/
structure Leaves (yamlExpansion : String → Option ExpansionManifest) (c : InputContext)
    (base : FileSystem) (es : List (String × ResolvedInput)) (fs : FileSystem) : Prop where
  made : ∀ q, c.DirOf q → fs.lookup q = none ∨ fs.lookup q = some .dir
  outside : ∀ q, ¬c.Below q → ¬c.DirOf q → fs.lookup q = base.lookup q
  dirs : ∀ n : FileName, fs.lookup (c.inputsDir ++ [n]) = none ∨
    fs.lookup (c.inputsDir ++ [n]) = some .dir
  links : ∀ p, c.Below p → (∀ n : FileName, p ≠ c.inputsDir ++ [n]) → fs.lookup p = none ∨
    ∃ target, fs.lookup p = some (.link target) ∧ c.Planned yamlExpansion base es p target

/-- The next attempt completes the directory and goes on from there. -/
theorem Leaves.create (hids : PlainIDs) (h : c.Leaves yamlExpansion base es fs)
    (hbase : ∀ q, c.DirOf q → base.lookup q = some .dir) :
    ∃ d, createBlockDirectory c.invocation.invocationID c.pipelineDir ⟨fs, none⟩ = .ok d ∧
      d.budget = none ∧ c.Reached yamlExpansion base es d.fs ∧
      ∀ p target, d.fs.lookup p = some (.link target) ↔ fs.lookup p = some (.link target) := by
  obtain ⟨d, hd, hb⟩ := create_made (c := c) (d := ⟨fs, none⟩) rfl h.made
  obtain ⟨-, hdir, hsame⟩ := create_ok hd
  have hbelow : ∀ p, c.Below p → d.fs.lookup p = fs.lookup p :=
    fun p hp => hsame p fun hq => not_below_dir hids hq hp
  refine ⟨d, hd, hb, ⟨fun p hp => ?_, fun n => ?_, fun p hp hn => ?_⟩, fun p target => ?_⟩
  · by_cases hq : c.DirOf p
    · rw [hdir p hq, hbase p hq]
    · rw [hsame p hq]
      exact h.outside p hp hq
  · rw [hbelow _ (below_append (List.cons_ne_nil _ _))]
    exact h.dirs n
  · rw [hbelow p hp]
    exact h.links p hp hn
  · by_cases hq : c.DirOf p
    · rw [hdir p hq]
      rcases h.made p hq with hp | hp <;> simp [hp]
    · rw [hsame p hq]

/-- The links below the directory of the invocation are planned. -/
theorem Leaves.planned (h : c.Leaves yamlExpansion base es fs)
    (hempty : ∀ q, c.workDir <+: q → ¬c.DirOf q → base.lookup q = none) {p : Path} {target : String}
    (hp : c.workDir <+: p) (ht : fs.lookup p = some (.link target)) :
    ∃ t, c.Planned yamlExpansion base es p t := by
  by_cases hbelow : c.Below p
  · by_cases hn : ∃ n : FileName, p = c.inputsDir ++ [n]
    · obtain ⟨n, rfl⟩ := hn
      rcases h.dirs n with hd | hd <;> rw [ht] at hd <;> cases hd
    · push Not at hn
      rcases h.links p hbelow hn with hnone | ⟨t, -, hplan⟩
      · rw [ht] at hnone
        cases hnone
      · exact ⟨t, hplan⟩
  · by_cases hq : c.DirOf p
    · rcases h.made p hq with hd | hd <;> rw [ht] at hd <;> cases hd
    · rw [h.outside p hbelow hq, hempty p hp hq] at ht
      cases ht

theorem leaves_reached (hids : PlainIDs) (h : c.Reached yamlExpansion base es fs)
    (hbase : ∀ q, c.DirOf q → base.lookup q = some .dir) : c.Leaves yamlExpansion base es fs :=
  ⟨fun q hq => .inr ((h.outside q (not_below_dir hids hq)).trans (hbase q hq)),
    fun q hq _ => h.outside q hq, h.dirs, h.links⟩

theorem leaves_begun {start : FileSystem} (hfresh : ∀ q, c.workDir <+: q → start.lookup q = none)
    (hids : PlainIDs) (h : c.Begun start fs)
    (hstart : ∀ q, c.DirOf q → start.lookup q = none ∨ start.lookup q = some .dir)
    (hsame : ∀ q, ¬c.DirOf q → base.lookup q = start.lookup q) :
    c.Leaves yamlExpansion base es fs := by
  have hbelow : ∀ q, c.Below q → fs.lookup q = none := by
    intro q hq
    rcases h q with heq | ⟨hd, -⟩
    · rw [heq, hfresh q (workDir_below hq)]
    · exact absurd hq (not_below_dir hids hd)
  refine ⟨fun q hq => ?_, fun q _ hq => ?_, fun n => ?_, fun p hp _ => .inl (hbelow p hp)⟩
  · rcases h q with heq | ⟨-, -, heq⟩
    · rw [heq]
      exact hstart q hq
    · exact .inr heq
  · rcases h q with heq | ⟨hd, -⟩
    · rw [heq, hsame q hq]
    · exact absurd hd hq
  · exact .inl (hbelow _ (below_append (List.cons_ne_nil _ _)))

/-- What the first attempt leaves, wherever it stops. -/
theorem leaves_attempt {start : FileSystem} {resolved : GoMap String ResolvedInput} {d₀ : Disk}
    (hids : PlainIDs)
    (hplain : ∀ e ∈ resolved.items, PlainName e.1 ∧ PlainName e.2.sourceOutputName)
    (hfresh : ∀ q, c.workDir <+: q → start.lookup q = none)
    (hbase : createBlockDirectory c.invocation.invocationID c.pipelineDir ⟨start, none⟩ = .ok d₀)
    (σ : MapOrder) (budget : Option ℕ) : c.Leaves yamlExpansion d₀.fs resolved.items
      (left (c.attempt yamlExpansion σ resolved ⟨start, budget⟩)) := by
  have hmem : ∀ e ∈ σ.range resolved, e ∈ resolved.items :=
    fun e he => (σ.range_perm resolved).mem_iff.mp he
  obtain ⟨hstart, hdir, hsame⟩ := create_ok hbase
  have hmade := made_create hids hfresh hbase
  unfold attempt
  have hbegun := begun_create (c := c) ⟨start, budget⟩
  cases hc : createBlockDirectory c.invocation.invocationID c.pipelineDir ⟨start, budget⟩ with
  | error stop =>
    rw [hc] at hbegun
    exact leaves_begun hfresh hids hbegun hstart hsame
  | ok d₁ =>
    obtain ⟨-, hdir₁, hsame₁⟩ := create_ok hc
    have hall : ∀ q, d₁.fs.lookup q = d₀.fs.lookup q := by
      intro q
      by_cases hq : c.DirOf q
      · rw [hdir₁ q hq, hdir q hq]
      · rw [hsame₁ q hq, hsame q hq]
    have hr : c.Reached yamlExpansion d₀.fs resolved.items d₁.fs :=
      ⟨fun p _ => hall p,
        fun n => .inl ((hall _).trans (hmade.empty _ (below_append (List.cons_ne_nil _ _)))),
        fun p hp _ => .inl ((hall p).trans (hmade.empty p hp))⟩
    refine leaves_reached hids ?_ hdir
    exact reached_setup hids hmade hr hmem fun e he => hplain e (hmem e he)

/-- A second attempt after a first one that stopped somewhere, in which a write may have been
the last: it gets through, and leaves the links of a single attempt. -/
def Repairs (yamlExpansion : String → Option ExpansionManifest) (c : InputContext)
    (resolved : GoMap String ResolvedInput) (start : FileSystem) (budget : Option ℕ)
    (σ₁ σ₂ σ₃ : MapOrder) : Prop :=
  ∃ d₂ d₃, c.attempt yamlExpansion σ₂ resolved
      ⟨left (c.attempt yamlExpansion σ₁ resolved ⟨start, budget⟩), none⟩ = .ok d₂ ∧
    c.attempt yamlExpansion σ₃ resolved ⟨start, none⟩ = .ok d₃ ∧
    ∀ p target, c.workDir <+: p →
      (d₂.fs.lookup p = some (.link target) ↔ d₃.fs.lookup p = some (.link target))

/-- A file system without links in the directory of the invocation. -/
def NoLinks (c : InputContext) (fs : FileSystem) : Prop :=
  ∀ p target, c.workDir <+: p → fs.lookup p ≠ some (.link target)

theorem repairs_iff {start : FileSystem} {resolved : GoMap String ResolvedInput}
    (hids : PlainIDs)
    (hplain : ∀ e ∈ resolved.items, PlainName e.1 ∧ PlainName e.2.sourceOutputName)
    (hfresh : ∀ q, c.workDir <+: q → start.lookup q = none) (budget : Option ℕ)
    (σ₁ σ₂ σ₃ : MapOrder) : c.Repairs yamlExpansion resolved start budget σ₁ σ₂ σ₃ ↔
      (∃ d, c.attempt yamlExpansion σ₃ resolved ⟨start, none⟩ = .ok d) ∧
        c.NoLinks (left (c.attempt yamlExpansion σ₁ resolved ⟨start, budget⟩)) := by
  have hmem : ∀ (σ : MapOrder), ∀ e ∈ σ.range resolved, e ∈ resolved.items :=
    fun σ e he => (σ.range_perm resolved).mem_iff.mp he
  have hplain' : ∀ (σ : MapOrder), ∀ e ∈ σ.range resolved,
      PlainName e.1 ∧ PlainName e.2.sourceOutputName := fun σ e he => hplain e (hmem σ e he)
  have hplanned : ∀ (σ : MapOrder) base p target,
      c.Planned yamlExpansion base (σ.range resolved) p target ↔
        c.Planned yamlExpansion base resolved.items p target := by
    intro σ base p target
    unfold Planned
    simp only [(σ.range_perm resolved).mem_iff]
  unfold Repairs
  set fs₁ := left (c.attempt yamlExpansion σ₁ resolved ⟨start, budget⟩)
  cases hc : createBlockDirectory c.invocation.invocationID c.pipelineDir ⟨start, none⟩ with
  | error stop =>
    have hfail : ∀ d, c.attempt yamlExpansion σ₃ resolved ⟨start, none⟩ ≠ .ok d := by
      intro d h
      rw [attempt, hc] at h
      cases h
    exact iff_of_false (fun ⟨_, d₃, _, h, _⟩ => hfail d₃ h) fun ⟨⟨d, h⟩, _⟩ => hfail d h
  | ok d₀ =>
    have hmade := made_create hids hfresh hc
    obtain ⟨hstart, hdir, hsame⟩ := create_ok hc
    have hempty : ∀ q, c.workDir <+: q → ¬c.DirOf q → d₀.fs.lookup q = none :=
      fun q hp hq => (hsame q hq).trans (hfresh q hp)
    have hleaves : c.Leaves yamlExpansion d₀.fs resolved.items fs₁ :=
      leaves_attempt hids hplain hfresh hc σ₁ budget
    obtain ⟨d, hd, hb, hr, hlinks⟩ := hleaves.create hids hdir
    have hr₀ : c.Reached yamlExpansion d₀.fs resolved.items d₀.fs :=
      ⟨fun _ _ => rfl, fun n => .inl (hmade.empty _ (below_append (List.cons_ne_nil _ _))),
        fun p hp _ => .inl (hmade.empty p hp)⟩
    have hb₀ : d₀.budget = none := by
      obtain ⟨d', hd', hb'⟩ := create_made (c := c) (d := ⟨start, none⟩) rfl hstart
      rw [hc] at hd'
      cases hd'
      exact hb'
    have hsecond : c.attempt yamlExpansion σ₂ resolved ⟨fs₁, none⟩ =
        (σ₂.range resolved).foldlM (c.setupInput yamlExpansion c.workDir) d := by
      rw [attempt, hd]
      rfl
    have hsingle : c.attempt yamlExpansion σ₃ resolved ⟨start, none⟩ =
        (σ₃.range resolved).foldlM (c.setupInput yamlExpansion c.workDir) d₀ := by
      rw [attempt, hc]
      rfl
    rw [hsecond, hsingle]
    constructor
    · rintro ⟨d₂, d₃, h₂, h₃, -⟩
      refine ⟨⟨d₃, h₃⟩, fun p target hp ht => ?_⟩
      obtain ⟨hall, -⟩ := setup_ok hids hmade hr (hmem σ₂) (hplain' σ₂) hb h₂
      obtain ⟨t, e, he, l, hl, x, hx, rfl, -⟩ := hleaves.planned hempty hp ht
      have hfree := (hall e ((σ₂.range_perm resolved).mem_iff.mpr he)).2 l hl x hx
      rw [(hlinks _ _).mpr ht] at hfree
      cases hfree
    · rintro ⟨⟨d₃, h₃⟩, hno⟩
      obtain ⟨hall, hlinks₃⟩ := setup_ok hids hmade hr₀ (hmem σ₃) (hplain' σ₃) hb₀ h₃
      have hfits : ∀ e ∈ σ₂.range resolved, c.Fits yamlExpansion d₀.fs e ∧
          c.Free yamlExpansion d₀.fs d.fs e := by
        intro e he
        have hfits := (hall e ((σ₃.range_perm resolved).mem_iff.mpr (hmem σ₂ e he))).1
        refine ⟨hfits, fun l hl x hx => ?_⟩
        obtain ⟨l', hl', hnames, -⟩ := hfits
        rw [hl] at hl'
        cases hl'
        have hbelow := plain_below (c := c) (hplain' σ₂ e he).1 hnames x hx
        have hdeep : ∀ n : FileName, (c.linkDir e).join x.1 ≠ c.inputsDir ++ [n] := by
          rw [linkDir_eq (hplain' σ₂ e he).1, Path.join_plain (hnames x hx)]
          simp
        rcases hr.links _ hbelow hdeep with h | ⟨t, ht, -⟩
        · exact h
        · exact absurd ((hlinks _ _).mp ht) (hno _ t (workDir_below hbelow))
      obtain ⟨d₂, h₂⟩ := setup_made hids hmade hr (hmem σ₂) (hplain' σ₂) hb (σ₂.range_nodup _) hfits
      obtain ⟨-, hlinks₂⟩ := setup_ok hids hmade hr (hmem σ₂) (hplain' σ₂) hb h₂
      refine ⟨d₂, d₃, h₂, h₃, fun p target hp => ?_⟩
      rw [hlinks₂, hlinks₃, hplanned, hplanned, hlinks]
      refine or_congr_left (iff_of_false (hno p target hp) fun h => ?_)
      by_cases hq : c.DirOf p
      · rw [hdir p hq] at h
        cases h
      · rw [hempty p hp hq] at h
        cases h

end InputContext
end Spade

namespace Spade.InputContext
open Uuid

theorem plainIDs : PlainIDs := fun u => string_plain u

/-- With names that are elements of a path, a second attempt repairs what the first has left,
if and only if a single attempt gets through and the first one has made no link. -/
theorem redelivery_iff (yamlExpansion : String → Option ExpansionManifest) (c : InputContext)
    (resolved : GoMap String ResolvedInput) (start : FileSystem)
    (hplain : ∀ e ∈ resolved.items, PlainName e.1 ∧ PlainName e.2.sourceOutputName)
    (hfresh : ∀ q, c.workDir <+: q → start.lookup q = none) (budget : Option ℕ)
    (σ₁ σ₂ σ₃ : MapOrder) : c.Repairs yamlExpansion resolved start budget σ₁ σ₂ σ₃ ↔
      (∃ d, c.attempt yamlExpansion σ₃ resolved ⟨start, none⟩ = .ok d) ∧
        c.NoLinks (Disk.left (c.attempt yamlExpansion σ₁ resolved ⟨start, budget⟩)) :=
  repairs_iff plainIDs hplain hfresh budget σ₁ σ₂ σ₃

end Spade.InputContext

namespace Spade.Samples
open Uuid

/-- The second block of the chain, which reads the output of the first. -/
def stepContext : InputContext where
  pipelineDir := Path.join [] "work"
  invocation := (block "step" 2 [1]).invocation (pipelineID 1) none
  manifest := { id := "step", kind := .standard }
  depManifests := (∅ : GoMap UUID BlockManifest).insert (blockID 1) { id := "source", kind := .standard }

/-- The output of the first block. -/
def stepFile : Path :=
  (((stepContext.pipelineDir.join (Uuid.string (blockID 1))).join "outputs").join "out").join "a.txt"

def stepInputs : GoMap String ResolvedInput :=
  (∅ : GoMap String ResolvedInput).insert "data" ⟨"data", blockID 1, "out", { type := "file" }⟩

/-- The first block has left a file. -/
def stepStart : FileSystem :=
  ((FileSystem.mkdirAll stepFile.dropLast ∅).getD ∅).insert stepFile (.file "")

theorem stepStart_fresh (q : Path) (hq : stepContext.workDir <+: q) : stepStart.lookup q = none := by
  have hkeys : ∀ p ∈ stepStart.keys, ¬stepContext.workDir <+: p := by decide
  rw [AList.lookup_eq_none]
  exact fun hmem => hkeys q (AList.mem_keys.mp hmem) hq

end Spade.Samples

namespace Spade.InputContext
open Samples Uuid

/-- The process dies before it makes a link. -/
theorem redelivery_early : Repairs (fun _ => none) stepContext stepInputs stepStart (some 5)
    .stored .stored .stored ↔
      (∃ d, stepContext.attempt (fun _ => none) .stored stepInputs ⟨stepStart, none⟩ = .ok d) ∧
        stepContext.NoLinks
          (Disk.left (stepContext.attempt (fun _ => none) .stored stepInputs ⟨stepStart, some 5⟩)) :=
  redelivery_iff _ _ _ _ (by decide) stepStart_fresh _ _ _ _

/-- The first attempt has gone through. -/
theorem redelivery_fails :
    (∃ d, stepContext.attempt (fun _ => none) .stored stepInputs ⟨stepStart, none⟩ = .ok d) ∧
      ¬Repairs (fun _ => none) stepContext stepInputs stepStart none .stored .stored .stored := by
  have hlink : (Disk.left (stepContext.attempt (fun _ => none) .stored stepInputs
      ⟨stepStart, none⟩)).lookup (((stepContext.workDir.join "inputs").join "data").join "a.txt") =
        some (.link stepFile.text) := by decide
  have hpre : stepContext.workDir <+: ((stepContext.workDir.join "inputs").join "data").join "a.txt" := by
    decide
  constructor
  · have hok : (stepContext.attempt (fun _ => none) .stored stepInputs ⟨stepStart, none⟩).isOk = true := by
      decide
    cases hd : stepContext.attempt (fun _ => none) .stored stepInputs ⟨stepStart, none⟩ with
    | ok d => exact ⟨d, rfl⟩
    | error stop =>
      rw [hd] at hok
      cases hok
  · rw [repairs_iff plainIDs (by decide) stepStart_fresh]
    exact fun h => h.2 _ _ hpre hlink

end Spade.InputContext
