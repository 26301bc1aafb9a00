import Spade.Runner.Planned

set_option autoImplicit false

/-!
# The inputs of an attempt, one after the other

An input gets through if its links can be told and none of them is there.
-/
namespace Spade
open UUIDPackage Disk
variable [UUIDPackage] {yamlExpansion : String → Option ExpansionManifest}

namespace InputContext
variable {c : InputContext} {base fs : FileSystem} {e : String × ResolvedInput} {d d' : Disk}

theorem plain_below {l : List (String × String)} (he : PlainName e.1)
    (hl : ∀ x ∈ l, PlainName x.1) : ∀ x ∈ l, c.Below ((c.linkDir e).join x.1) := by
  intro x hx
  rw [linkDir_eq he, Path.join_plain (hl x hx), List.append_assoc]
  exact below_append (List.cons_ne_nil _ _)

/-- Plain links leave what is outside. -/
theorem Outside.linked {l : List (String × String)} (h : c.Outside base d.fs)
    (he : PlainName e.1) (hl : ∀ x ∈ l, PlainName x.1) (hd : linkAll (c.linkDir e) l d = .ok d') :
    c.Outside base d'.fs := by
  intro p hp
  rw [(linkAll_ok hd).2.2.2 p fun x hx heq => hp (heq ▸ plain_below he hl x hx), h p hp]

omit [UUIDPackage] in
theorem siblingLinks_plain (fs : FileSystem) (ri : ResolvedInput) (siblings : List FileName) :
    ∀ x ∈ c.siblingLinks fs ri siblings, PlainName x.1 := by
  intro x hx
  obtain ⟨s, -, hx⟩ := List.mem_flatMap.mp hx
  cases hr : fs.readDir (c.outDir s.1 ri) with
  | none =>
    rw [hr] at hx
    cases hx
  | some entries =>
    rw [hr] at hx
    exact entryLinks_plain (.inr (siblingTag s)) x hx

theorem linkSiblings_eq (hids : PlainIDs) (he : PlainName e.1)
    (hout : PlainName e.2.sourceOutputName) (h : c.Outside base d.fs) (siblings : List FileName) :
    c.linkSiblings (c.linkDir e) e.2 siblings d =
      linkAll (c.linkDir e) (c.siblingLinks base e.2 siblings) d := by
  induction siblings generalizing d with
  | nil => rfl
  | cons s siblings ih =>
    have hread := h.readOut hids s.2 hout
    unfold linkSiblings siblingLinks at ih ⊢
    rw [List.foldlM_cons, List.flatMap_cons, linkAll_append]
    have houtDir : ((c.pipelineDir.join s.1).join "outputs").join e.2.sourceOutputName =
      c.outDir s.1 e.2 := rfl
    simp only [houtDir, hread]
    cases hr : base.readDir (c.outDir s.1 e.2) with
    | none => exact ih h
    | some entries =>
      dsimp only
      rw [linkEntries_eq]
      cases hl : linkAll (c.linkDir e)
        (entryLinks (c.outDir s.1 e.2) (idxTag s.1 ++ "_") entries) d with
      | error stop => rfl
      | ok d₁ => exact ih (h.linked he (entryLinks_plain (.inr (siblingTag s))) hl)

/-- The links are made, if there is something to link to. -/
def linkAsked (linkDir : Path) : Option (List (String × String)) → Disk → Disk.Result
  | none, d => d.fail
  | some l, d => linkAll linkDir l d

/-- An input makes its directory and the links that it asks for. -/
theorem setupInput_eq (hids : PlainIDs) (he : PlainName e.1)
    (hout : PlainName e.2.sourceOutputName)
    (h : ∀ fs', FileSystem.mkdirAll (c.linkDir e) d.fs = some fs' → c.Outside base fs') :
    c.setupInput yamlExpansion c.workDir d e =
      d.write (FileSystem.mkdirAll (c.linkDir e)) >>=
        linkAsked (c.linkDir e) (c.links yamlExpansion base e) := by
  have hlinkDir : (c.workDir.join "inputs").join e.1 = c.linkDir e := rfl
  unfold setupInput
  simp only [hlinkDir]
  cases hw : d.write (FileSystem.mkdirAll (c.linkDir e)) with
  | error stop => rfl
  | ok d₁ =>
    change _ = linkAsked (c.linkDir e) (c.links yamlExpansion base e) d₁
    dsimp only
    rw [← (h _ (write_ok hw)).links yamlExpansion hids hout]
    have hsource : c.linkSource (c.linkDir e) e.2 d₁ =
        linkAsked (c.linkDir e) (c.sourceLinks d₁.fs e.2) d₁ := by
      unfold linkSource sourceLinks
      cases d₁.fs.readDir (c.sourceDir e.2 d₁.fs) with
      | none => rfl
      | some entries => exact linkEntries_eq _ _ _ _ _
    have hitem : ∀ idx, c.linkItem yamlExpansion (c.linkDir e) e.2 idx d₁ =
        linkAsked (c.linkDir e) (c.itemLinks yamlExpansion d₁.fs e.2 idx) d₁ := by
      intro idx
      have houtDir : ((c.pipelineDir.join (string e.2.sourceBlockID)).join "outputs").join
          e.2.sourceOutputName = c.outDir (string e.2.sourceBlockID) e.2 := rfl
      unfold linkItem itemLinks
      simp only [houtDir]
      cases loadExpansionManifest yamlExpansion
        ((c.outDir (string e.2.sourceBlockID) e.2).join "expansion.yaml") d₁.fs with
      | none => rfl
      | some exp =>
        dsimp only
        by_cases hneg : idx < 0
        · rw [if_pos hneg, if_pos hneg]
          rfl
        · rw [if_neg hneg, if_neg hneg]
          cases exp.items[idx.toNat]? with
          | none => rfl
          | some item =>
            dsimp only [Option.map_some]
            rw [linkAsked, linkAll, List.foldlM_cons]
            exact (bind_pure _).symm
    have hsiblings := linkSiblings_eq (c := c) (d := d₁) hids he hout (fun _ _ => rfl) (c.siblings e.2 d₁.fs)
    have hrest : (if c.manifest.kind = .reduce ∧ c.siblings e.2 d₁.fs ≠ [] then
        c.linkSiblings (c.linkDir e) e.2 (c.siblings e.2 d₁.fs) d₁
        else c.linkSource (c.linkDir e) e.2 d₁) =
        linkAsked (c.linkDir e)
          (if c.manifest.kind = .reduce ∧ c.siblings e.2 d₁.fs ≠ [] then
            some (c.siblingLinks d₁.fs e.2 (c.siblings e.2 d₁.fs))
          else c.sourceLinks d₁.fs e.2) d₁ := by
      by_cases hred : c.manifest.kind = .reduce ∧ c.siblings e.2 d₁.fs ≠ []
      · rw [if_pos hred, if_pos hred]
        exact hsiblings
      · rw [if_neg hred, if_neg hred]
        exact hsource
    unfold InputContext.links
    cases c.invocation.mapIndex with
    | none => exact hrest
    | some idx =>
      dsimp only
      by_cases hmap : (c.depManifests.lookup e.2.sourceBlockID).map BlockManifest.kind = some .map
      · rw [if_pos hmap, if_pos hmap]
        exact hitem idx
      · rw [if_neg hmap, if_neg hmap]
        exact hrest

/-! The state of an attempt. -/

/-- The directory for the inputs is there and empty. -/
structure Made (c : InputContext) (base : FileSystem) : Prop where
  dirs : ∀ q, q ≠ [] → q <+: c.inputsDir → base.lookup q = some .dir
  empty : ∀ q, c.Below q → base.lookup q = none

/-- One of the inputs asks for the link. -/
def Planned (yamlExpansion : String → Option ExpansionManifest) (c : InputContext)
    (base : FileSystem) (es : List (String × ResolvedInput)) (p : Path) (target : String) : Prop :=
  ∃ e ∈ es, ∃ l, c.links yamlExpansion base e = some l ∧
    ∃ x ∈ l, p = (c.linkDir e).join x.1 ∧ target = x.2

/-- Below the directory for the inputs stand their directories and links that they ask for. -/
structure Reached (yamlExpansion : String → Option ExpansionManifest) (c : InputContext)
    (base : FileSystem) (es : List (String × ResolvedInput)) (fs : FileSystem) : Prop where
  outside : c.Outside base fs
  dirs : ∀ n : FileName, fs.lookup (c.inputsDir ++ [n]) = none ∨
    fs.lookup (c.inputsDir ++ [n]) = some .dir
  links : ∀ p, c.Below p → (∀ n : FileName, p ≠ c.inputsDir ++ [n]) → fs.lookup p = none ∨
    ∃ target, fs.lookup p = some (.link target) ∧ c.Planned yamlExpansion base es p target

variable {es : List (String × ResolvedInput)}

theorem inputsDir_ne (hids : PlainIDs) : c.inputsDir ≠ [] := by
  obtain ⟨n, -, hn⟩ := workDir_eq (c := c) hids
  rw [hn]
  exact List.append_ne_nil_of_right_ne_nil _ (List.cons_ne_nil _ _)

theorem mkdir_linkDir (hm : c.Made base) (hr : c.Reached yamlExpansion base es fs)
    (he : PlainName e.1) : ∃ fs', FileSystem.mkdirAll (c.linkDir e) fs = some fs' ∧
      ∀ q, fs'.lookup q = if q = c.linkDir e then some .dir else fs.lookup q := by
  have hdir : ∀ q, q ≠ [] → q <+: c.linkDir e → q = c.linkDir e ∨ fs.lookup q = some .dir := by
    intro q hq hp
    rw [linkDir_eq he, List.prefix_concat_iff] at hp
    rcases hp with hp | hp
    · exact .inl (hp.trans (linkDir_eq he).symm)
    · exact .inr ((hr.outside q (not_below_above hp)).trans (hm.dirs q hq hp))
  obtain ⟨fs', hfs⟩ : ∃ fs', FileSystem.mkdirAll (c.linkDir e) fs = some fs' := by
    refine FileSystem.mkdirAll_ok fun q hq hp => ?_
    rcases hdir q hq hp with rfl | h
    · rw [linkDir_eq he]
      exact hr.dirs _
    · exact .inr h
  refine ⟨fs', hfs, fun q => ?_⟩
  rw [FileSystem.mkdirAll_lookup hfs]
  by_cases hq : q = c.linkDir e
  · rw [if_pos hq, if_pos]
    rw [hq, linkDir_eq he]
    exact ⟨List.append_ne_nil_of_right_ne_nil _ (List.cons_ne_nil _ _), List.prefix_refl _⟩
  · rw [if_neg hq]
    split_ifs with hp
    · exact ((hdir q hp.1 hp.2).resolve_left hq).symm
    · rfl

theorem Reached.mkdir (hr : c.Reached yamlExpansion base es fs) (he : PlainName e.1)
    {fs' : FileSystem}
    (h : ∀ q, fs'.lookup q = if q = c.linkDir e then some .dir else fs.lookup q) :
    c.Reached yamlExpansion base es fs' ∧ fs'.lookup (c.linkDir e) = some .dir := by
  have hb := linkDir_eq (c := c) he
  refine ⟨⟨fun p hp => ?_, fun n => ?_, fun p hp hn => ?_⟩, by rw [h, if_pos rfl]⟩
  · rw [h, if_neg, hr.outside p hp]
    rintro rfl
    exact hp (hb ▸ below_append (List.cons_ne_nil _ _))
  · rw [h]
    split_ifs
    · exact .inr rfl
    · exact hr.dirs n
  · rw [h, if_neg (hb ▸ hn _)]
    exact hr.links p hp hn

theorem Reached.outside_mkdir (hr : c.Reached yamlExpansion base es fs) (hm : c.Made base)
    (he : PlainName e.1) (fs' : FileSystem)
    (h : FileSystem.mkdirAll (c.linkDir e) fs = some fs') : c.Outside base fs' := by
  obtain ⟨fs₁, hfs, hmk⟩ := mkdir_linkDir hm hr he
  rw [hfs] at h
  cases h
  exact (hr.mkdir he hmk).1.outside

/-- A link that can be made has a plain name. -/
theorem plain_of_symlink (hids : PlainIDs) (hm : c.Made base) (ho : c.Outside base fs)
    (he : PlainName e.1) (hdir : fs.lookup (c.linkDir e) = some .dir) {x : String}
    (hx : PlainName x ∨ x = "." ∨ x = ".." ∨ x = "/")
    (hfree : fs.lookup ((c.linkDir e).join x) = none) : PlainName x := by
  rcases hx with hx | rfl | rfl | rfl
  · exact hx
  · rw [Path.join_dot, hdir] at hfree
    cases hfree
  · rw [Path.join_dots, linkDir_eq he, List.dropLast_concat,
      ho _ (not_below_above (List.prefix_refl _)),
      hm.dirs _ (inputsDir_ne hids) (List.prefix_refl _)] at hfree
    cases hfree
  · rw [Path.join_slash, hdir] at hfree
    cases hfree

omit [UUIDPackage] in
theorem sourceLinks_plain [UUIDPackage] {ri : ResolvedInput} {l : List (String × String)}
    (h : c.sourceLinks fs ri = some l) : ∀ x ∈ l, PlainName x.1 := by
  obtain ⟨entries, -, rfl⟩ := Option.map_eq_some_iff.mp h
  exact entryLinks_plain (.inl rfl)

theorem links_names {l : List (String × String)} (h : c.links yamlExpansion base e = some l) :
    ∀ x ∈ l, PlainName x.1 ∨ x.1 = "." ∨ x.1 = ".." ∨ x.1 = "/" := by
  have hrest : (if c.manifest.kind = .reduce ∧ c.siblings e.2 base ≠ [] then
      some (c.siblingLinks base e.2 (c.siblings e.2 base)) else c.sourceLinks base e.2) = some l →
      ∀ x ∈ l, PlainName x.1 := by
    intro h
    split_ifs at h
    · cases h
      exact siblingLinks_plain _ _ _
    · exact sourceLinks_plain h
  unfold InputContext.links at h
  cases hidx : c.invocation.mapIndex with
  | none =>
    rw [hidx] at h
    exact fun x hx => .inl (hrest h x hx)
  | some idx =>
    rw [hidx] at h
    dsimp only at h
    by_cases hmap : (c.depManifests.lookup e.2.sourceBlockID).map BlockManifest.kind = some .map
    · rw [if_pos hmap] at h
      unfold itemLinks at h
      split at h
      · cases h
      · split_ifs at h
        obtain ⟨item, -, rfl⟩ := Option.map_eq_some_iff.mp h
        intro x hx
        rw [List.mem_singleton.mp hx]
        exact Path.base_cases _
    · rw [if_neg hmap] at h
      exact fun x hx => .inl (hrest h x hx)

/-- An input keeps the state of the attempt, wherever it stops. -/
theorem reached_setupInput (hids : PlainIDs) (hm : c.Made base)
    (hr : c.Reached yamlExpansion base es d.fs) (hmem : e ∈ es) (he : PlainName e.1)
    (hout : PlainName e.2.sourceOutputName) :
    c.Reached yamlExpansion base es (left (c.setupInput yamlExpansion c.workDir d e)) := by
  obtain ⟨fs₁, hfs, hl⟩ := mkdir_linkDir hm hr he
  have hr₁ := hr.mkdir he hl
  have hok : ∀ d', d.write (FileSystem.mkdirAll (c.linkDir e)) = .ok d' → d'.fs = fs₁ := by
    intro d' hw
    have hfs' := write_ok hw
    rw [hfs] at hfs'
    exact (Option.some.inj hfs').symm
  rw [setupInput_eq hids he hout (hr.outside_mkdir hm he)]
  have hleft := left_write (d := d) (f := FileSystem.mkdirAll (c.linkDir e))
    (P := c.Reached yamlExpansion base es) hr fun fs' hfs' => by
      rw [hfs] at hfs'
      exact Option.some.inj hfs' ▸ hr₁.1
  cases hw : d.write (FileSystem.mkdirAll (c.linkDir e)) with
  | error stop =>
    rw [hw] at hleft
    exact hleft
  | ok d₁ =>
    change c.Reached yamlExpansion base es (left (linkAsked _ _ d₁))
    cases hl : c.links yamlExpansion base e with
    | none =>
      rw [← hok d₁ hw] at hr₁
      exact hr₁.1
    | some l =>
      refine (left_linkAll (P := fun fs => c.Reached yamlExpansion base es fs ∧
        fs.lookup (c.linkDir e) = some .dir) (hok d₁ hw ▸ hr₁) ?_).1
      rintro fs fs' x hx ⟨hr, hdir⟩ hlink
      obtain ⟨⟨hfree, -, -⟩, rfl⟩ := FileSystem.symlink_eq_some.mp hlink
      have hplain := plain_of_symlink hids hm hr.outside he hdir (links_names hl x hx) hfree
      have hpath : (c.linkDir e).join x.1 = c.inputsDir ++ [⟨e.1, he⟩, ⟨x.1, hplain⟩] := by
        rw [linkDir_eq he, Path.join_plain hplain, List.append_assoc]
        rfl
      have hsame : ∀ p, p ≠ (c.linkDir e).join x.1 →
          (fs.insert ((c.linkDir e).join x.1) (.link x.2)).lookup p = fs.lookup p :=
        fun p hp => AList.lookup_insert_ne hp
      refine ⟨⟨fun p hp => ?_, fun n => ?_, fun p hp hn => ?_⟩, ?_⟩
      · rw [hsame p fun heq => hp (heq ▸ hpath ▸ below_append (List.cons_ne_nil _ _)), hr.outside p hp]
      · rw [hsame _ (by rw [hpath]; simp)]
        exact hr.dirs n
      · by_cases hpx : p = (c.linkDir e).join x.1
        · rw [hpx, AList.lookup_insert]
          exact .inr ⟨x.2, rfl, e, hmem, l, hl, x, hx, rfl, rfl⟩
        · rw [hsame p hpx]
          exact hr.links p hp hn
      · rw [hsame _ (by rw [hpath, linkDir_eq he]; simp)]
        exact hdir

/-- The links of an input can be told, and have different plain names. -/
def Fits (yamlExpansion : String → Option ExpansionManifest) (c : InputContext)
    (base : FileSystem) (e : String × ResolvedInput) : Prop :=
  ∃ l, c.links yamlExpansion base e = some l ∧ (∀ x ∈ l, PlainName x.1) ∧ (l.map Prod.fst).Nodup

/-- None of the links of an input is there. -/
def Free (yamlExpansion : String → Option ExpansionManifest) (c : InputContext)
    (base fs : FileSystem) (e : String × ResolvedInput) : Prop :=
  ∀ l, c.links yamlExpansion base e = some l → ∀ x ∈ l, fs.lookup ((c.linkDir e).join x.1) = none

/-- An input that gets through. -/
theorem setupInput_ok (hids : PlainIDs) (hm : c.Made base)
    (hr : c.Reached yamlExpansion base es d.fs) (he : PlainName e.1)
    (hout : PlainName e.2.sourceOutputName) (hb : d.budget = none)
    (h : c.setupInput yamlExpansion c.workDir d e = .ok d') :
    d'.budget = none ∧ c.Fits yamlExpansion base e ∧ c.Free yamlExpansion base d.fs e ∧
    (∀ p, d.fs.lookup p ≠ none → d'.fs.lookup p ≠ none) ∧
    ∀ p target, d'.fs.lookup p = some (.link target) ↔
      d.fs.lookup p = some (.link target) ∨ c.Planned yamlExpansion base [e] p target := by
  obtain ⟨fs₁, hfs, hmk⟩ := mkdir_linkDir hm hr he
  have hr₁ := hr.mkdir he hmk
  have hw : d.write (FileSystem.mkdirAll (c.linkDir e)) = .ok ⟨fs₁, none⟩ := write_unbounded hb hfs
  rw [setupInput_eq hids he hout (hr.outside_mkdir hm he), hw] at h
  change linkAsked _ _ _ = _ at h
  cases hl : c.links yamlExpansion base e with
  | none =>
    rw [hl] at h
    cases h
  | some l =>
    rw [hl, linkAsked] at h
    obtain ⟨hfree, hn, hnew, hsame⟩ := linkAll_ok h
    have hplain : ∀ x ∈ l, PlainName x.1 := fun x hx =>
      plain_of_symlink hids hm hr₁.1.outside he hr₁.2 (links_names hl x hx) (hfree x hx)
    have hne : ∀ x ∈ l, (c.linkDir e).join x.1 ≠ c.linkDir e := by
      intro x hx
      rw [Path.join_plain (hplain x hx)]
      simp
    have hfree' : ∀ x ∈ l, d.fs.lookup ((c.linkDir e).join x.1) = none := by
      intro x hx
      have hx' := hfree x hx
      rwa [hmk, if_neg (hne x hx)] at hx'
    have hdir : ∀ target, d.fs.lookup (c.linkDir e) ≠ some (.link target) := by
      intro target ht
      rw [linkDir_eq he] at ht
      rcases hr.dirs ⟨e.1, he⟩ with hd | hd
      · rw [hd] at ht
        cases ht
      · rw [hd] at ht
        cases ht
    refine ⟨?_, ⟨l, hl, hplain, ?_⟩, ?_, fun p hp => ?_, fun p target => ?_⟩
    · exact Disk.foldlM_ok (P := fun d => d.budget = none) (fun d x _ d' hb h => write_budget hb h) rfl h
    · refine List.Nodup.of_map (fun s => (c.linkDir e).join s) ?_
      rw [List.map_map]
      exact hn
    · intro l' hl'
      rw [hl] at hl'
      cases hl'
      exact hfree'
    · by_cases hx : ∃ x ∈ l, p = (c.linkDir e).join x.1
      · obtain ⟨x, hx, rfl⟩ := hx
        rw [hnew x hx]
        exact Option.some_ne_none _
      · push Not at hx
        rw [hsame p hx]
        dsimp only
        rw [hmk]
        split_ifs
        · exact Option.some_ne_none _
        · exact hp
    · by_cases hx : ∃ x ∈ l, p = (c.linkDir e).join x.1
      · obtain ⟨x, hx, rfl⟩ := hx
        rw [hnew x hx, hfree' x hx]
        constructor
        · intro ht
          cases ht
          exact .inr ⟨e, List.mem_singleton.mpr rfl, l, hl, x, hx, rfl, rfl⟩
        · rintro (ht | ⟨e', he', l', hl', x', hx', hp, rfl⟩)
          · cases ht
          · rw [List.mem_singleton.mp he'] at hl' hp
            rw [hl] at hl'
            cases hl'
            rw [← hnew x hx, hp, hnew x' hx']
      · have hno : ¬c.Planned yamlExpansion base [e] p target := by
          rintro ⟨e', he', l', hl', x', hx', hp, -⟩
          rw [List.mem_singleton.mp he'] at hl' hp
          rw [hl] at hl'
          cases hl'
          exact hx ⟨x', hx', hp⟩
        push Not at hx
        rw [hsame p hx, or_iff_left hno]
        dsimp only
        rw [hmk]
        split_ifs with hp
        · rw [hp]
          exact iff_of_false (by simp) (hdir target)
        · rfl

/-- It makes one of the directories. -/
theorem setupInput_dirs (hids : PlainIDs) (hm : c.Made base)
    (hr : c.Reached yamlExpansion base es d.fs) (he : PlainName e.1)
    (hout : PlainName e.2.sourceOutputName) (h : c.setupInput yamlExpansion c.workDir d e = .ok d')
    (n : FileName) : d'.fs.lookup (c.inputsDir ++ [n]) =
      if n.1 = e.1 then some .dir else d.fs.lookup (c.inputsDir ++ [n]) := by
  obtain ⟨fs₁, hfs, hmk⟩ := mkdir_linkDir hm hr he
  have hr₁ := hr.mkdir he hmk
  rw [setupInput_eq hids he hout (hr.outside_mkdir hm he)] at h
  cases hw : d.write (FileSystem.mkdirAll (c.linkDir e)) with
  | error stop =>
    rw [hw] at h
    cases h
  | ok d₁ =>
    rw [hw] at h
    change linkAsked _ _ d₁ = _ at h
    have hd₁ : d₁.fs = fs₁ := by
      have hfs' := write_ok hw
      rw [hfs] at hfs'
      exact (Option.some.inj hfs').symm
    cases hl : c.links yamlExpansion base e with
    | none =>
      rw [hl] at h
      cases h
    | some l =>
      rw [hl, linkAsked] at h
      obtain ⟨hfree, -, -, hsame⟩ := linkAll_ok h
      have hplain : ∀ x ∈ l, PlainName x.1 := fun x hx =>
        plain_of_symlink hids hm (hd₁ ▸ hr₁.1.outside) he (hd₁ ▸ hr₁.2) (links_names hl x hx) (hfree x hx)
      rw [hsame _ fun x hx => ?_, hd₁, hmk, linkDir_eq he]
      · refine if_congr ?_ rfl rfl
        simp [Subtype.ext_iff]
      · rw [Path.join_plain (hplain x hx), linkDir_eq he]
        simp

theorem setupInput_made (hids : PlainIDs) (hm : c.Made base)
    (hr : c.Reached yamlExpansion base es d.fs) (he : PlainName e.1)
    (hout : PlainName e.2.sourceOutputName) (hb : d.budget = none)
    (hfits : c.Fits yamlExpansion base e) (hfree : c.Free yamlExpansion base d.fs e) :
    ∃ d', c.setupInput yamlExpansion c.workDir d e = .ok d' := by
  obtain ⟨fs₁, hfs, hmk⟩ := mkdir_linkDir hm hr he
  have hr₁ := hr.mkdir he hmk
  have hw : d.write (FileSystem.mkdirAll (c.linkDir e)) = .ok ⟨fs₁, none⟩ := write_unbounded hb hfs
  obtain ⟨l, hl, hplain, hn⟩ := hfits
  rw [setupInput_eq hids he hout (hr.outside_mkdir hm he), hw, hl]
  refine linkAll_made rfl (by simp [FileSystem.isDir, hr₁.2]) hplain hn fun x hx => ?_
  dsimp only
  rw [hmk, if_neg, hfree l hl x hx]
  rw [Path.join_plain (hplain x hx)]
  simp

/-! All inputs. -/

variable {l : List (String × ResolvedInput)}

theorem reached_setup (hids : PlainIDs) (hm : c.Made base)
    (hr : c.Reached yamlExpansion base es d.fs) (hmem : ∀ e ∈ l, e ∈ es)
    (hplain : ∀ e ∈ l, PlainName e.1 ∧ PlainName e.2.sourceOutputName) :
    c.Reached yamlExpansion base es (left (l.foldlM (c.setupInput yamlExpansion c.workDir) d)) :=
  left_foldlM (fun _ e hl hr =>
    reached_setupInput hids hm hr (hmem e hl) (hplain e hl).1 (hplain e hl).2) hr

theorem setup_ok (hids : PlainIDs) (hm : c.Made base)
    (hr : c.Reached yamlExpansion base es d.fs) (hmem : ∀ e ∈ l, e ∈ es)
    (hplain : ∀ e ∈ l, PlainName e.1 ∧ PlainName e.2.sourceOutputName) (hb : d.budget = none)
    (h : l.foldlM (c.setupInput yamlExpansion c.workDir) d = .ok d') :
    (∀ e ∈ l, c.Fits yamlExpansion base e ∧ c.Free yamlExpansion base d.fs e) ∧
    ∀ p target, d'.fs.lookup p = some (.link target) ↔
      d.fs.lookup p = some (.link target) ∨ c.Planned yamlExpansion base l p target := by
  induction l generalizing d with
  | nil =>
    cases h
    refine ⟨fun _ h => (List.not_mem_nil h).elim, fun p target => (or_iff_left ?_).symm⟩
    rintro ⟨_, h, -⟩
    cases h
  | cons e l ih =>
    obtain ⟨he, hout⟩ := hplain e (by simp)
    rw [List.foldlM_cons] at h
    cases hd : c.setupInput yamlExpansion c.workDir d e with
    | error stop =>
      rw [hd] at h
      cases h
    | ok d₁ =>
      rw [hd] at h
      obtain ⟨hb₁, hfits, hfree, hmono, hlinks⟩ := setupInput_ok hids hm hr he hout hb hd
      have hr₁ := reached_setupInput hids hm hr (hmem e (by simp)) he hout
      rw [hd] at hr₁
      obtain ⟨hall, hrest⟩ := ih hr₁ (fun e' h => hmem e' (by simp [h]))
        (fun e' h => hplain e' (by simp [h])) hb₁ h
      constructor
      · intro e' he'
        rcases List.mem_cons.mp he' with rfl | he'
        · exact ⟨hfits, hfree⟩
        · refine ⟨(hall e' he').1, fun l' hl' x hx => ?_⟩
          by_contra hsome
          exact hmono _ hsome ((hall e' he').2 l' hl' x hx)
      · intro p target
        rw [hrest, hlinks, or_assoc]
        refine or_congr_right ?_
        unfold Planned
        simp [or_and_right, exists_or]

theorem setup_dirs (hids : PlainIDs) (hm : c.Made base)
    (hr : c.Reached yamlExpansion base es d.fs) (hmem : ∀ e ∈ l, e ∈ es)
    (hplain : ∀ e ∈ l, PlainName e.1 ∧ PlainName e.2.sourceOutputName)
    (h : l.foldlM (c.setupInput yamlExpansion c.workDir) d = .ok d') (n : FileName) :
    d'.fs.lookup (c.inputsDir ++ [n]) =
      if n.1 ∈ l.map Prod.fst then some .dir else d.fs.lookup (c.inputsDir ++ [n]) := by
  induction l generalizing d with
  | nil =>
    cases h
    rfl
  | cons e l ih =>
    obtain ⟨he, hout⟩ := hplain e (by simp)
    rw [List.foldlM_cons] at h
    cases hd : c.setupInput yamlExpansion c.workDir d e with
    | error stop =>
      rw [hd] at h
      cases h
    | ok d₁ =>
      rw [hd] at h
      have hr₁ := reached_setupInput hids hm hr (hmem e (by simp)) he hout
      rw [hd] at hr₁
      rw [ih hr₁ (fun e' h => hmem e' (by simp [h])) (fun e' h => hplain e' (by simp [h])) h,
        setupInput_dirs hids hm hr he hout hd, List.map_cons]
      by_cases hn : n.1 = e.1
      · rw [if_pos hn, if_pos (List.mem_cons.mpr (.inl hn)), ite_self]
      · rw [if_neg hn]
        exact if_congr (by rw [List.mem_cons, or_iff_right hn]) rfl rfl

theorem setup_made (hids : PlainIDs) (hm : c.Made base)
    (hr : c.Reached yamlExpansion base es d.fs) (hmem : ∀ e ∈ l, e ∈ es)
    (hplain : ∀ e ∈ l, PlainName e.1 ∧ PlainName e.2.sourceOutputName) (hb : d.budget = none)
    (hn : (l.map Prod.fst).Nodup)
    (hall : ∀ e ∈ l, c.Fits yamlExpansion base e ∧ c.Free yamlExpansion base d.fs e) :
    ∃ d', l.foldlM (c.setupInput yamlExpansion c.workDir) d = .ok d' := by
  induction l generalizing d with
  | nil => exact ⟨d, rfl⟩
  | cons e l ih =>
    obtain ⟨he, hout⟩ := hplain e (by simp)
    rw [List.map_cons, List.nodup_cons] at hn
    obtain ⟨hfits, hfree⟩ := hall e (by simp)
    obtain ⟨d₁, hd⟩ := setupInput_made hids hm hr he hout hb hfits hfree
    obtain ⟨hb₁, -, -, -, hlinks⟩ := setupInput_ok hids hm hr he hout hb hd
    have hr₁ := reached_setupInput hids hm hr (hmem e (by simp)) he hout
    rw [hd] at hr₁
    rw [List.foldlM_cons, hd]
    refine ih hr₁ (fun e' h => hmem e' (by simp [h])) (fun e' h => hplain e' (by simp [h])) hb₁ hn.2
      fun e' he' => ⟨(hall e' (by simp [he'])).1, fun l' hl' x hx => ?_⟩
    obtain ⟨hfits', hfree'⟩ := hall e' (by simp [he'])
    obtain ⟨l'', hl'', hplain'', -⟩ := hfits'
    rw [hl'] at hl''
    cases hl''
    have hpath : (c.linkDir e').join x.1 =
        c.inputsDir ++ [⟨e'.1, (hplain e' (by simp [he'])).1⟩, ⟨x.1, hplain'' x hx⟩] := by
      rw [linkDir_eq (hplain e' (by simp [he'])).1, Path.join_plain (hplain'' x hx), List.append_assoc]
      rfl
    rcases hr₁.links ((c.linkDir e').join x.1) (hpath ▸ below_append (List.cons_ne_nil _ _))
      (fun n => by rw [hpath]; simp) with hnone | ⟨target, ht, -⟩
    · exact hnone
    · rcases (hlinks _ _).mp ht with ht | ⟨e'', he'', k, hk, y, hy, hp, -⟩
      · rw [hfree' l' hl' x hx] at ht
        cases ht
      · rw [List.mem_singleton.mp he''] at hk hp
        obtain ⟨k', hk', hplaink, -⟩ := hfits
        rw [hk] at hk'
        cases hk'
        rw [hpath, linkDir_eq he, Path.join_plain (hplaink y hy), List.append_assoc] at hp
        have hname := List.cons.inj (List.append_cancel_left hp)
        exact absurd (List.mem_map.mpr ⟨e', he', congrArg Subtype.val hname.1⟩) hn.1

end InputContext
end Spade
