import Mathlib.Data.Set.Function
import Spade.Runner.Redelivery

set_option autoImplicit false

/-!
# What a reduce invocation gathers

The name of a gathered link starts with an index, which ends at the first underscore, so
that it can be read back whatever the name of the entry is.
-/
namespace Spade
open UUIDPackage Disk

theorem underscore_not_mem_itoa (n : ℕ) : '_' ∉ (itoa n).toList := by
  intro h
  have hd := List.all_eq_true.mp (itoa_digits n).2 _ h
  simp at hd

theorem index_read_back (n : ℕ) (s : List Char) :
    ((itoa n).toList ++ '_' :: s).takeWhile (· ≠ '_') = (itoa n).toList := by
  have hn : ∀ c ∈ (itoa n).toList, decide (c ≠ '_') = true := by
    intro c hc
    rw [decide_eq_true_eq]
    exact fun h => underscore_not_mem_itoa n (h ▸ hc)
  rw [List.takeWhile_append_of_pos hn]
  simp

theorem prefixed_inj {i j : ℕ} {s t : String} (h : itoa i ++ "_" ++ s = itoa j ++ "_" ++ t) :
    i = j ∧ s = t := by
  have hchars : (itoa i).toList ++ '_' :: s.toList = (itoa j).toList ++ '_' :: t.toList := by
    simpa using congrArg String.toList h
  have hidx : (itoa i).toList = (itoa j).toList := by
    rw [← index_read_back i s.toList, hchars, index_read_back]
  rw [hidx] at hchars
  exact ⟨itoa_injective (String.toList_inj.mp hidx),
    String.toList_inj.mp (List.cons.inj (List.append_cancel_left hchars)).2⟩

/-- The directory holds a link for each of the elements, and nothing else. -/
def LinksTo {A : Type} (fs : FileSystem) (dir : Path) (name target : A → String) (s : Set A) : Prop :=
  ∃ names, fs.readDir dir = some names ∧
    Set.BijOn name s {n | ∃ f ∈ names, f.1 = n} ∧
    ∀ a ∈ s, fs.lookup (dir.join (name a)) = some (.link (target a))

variable [UUIDPackage] {yamlExpansion : String → Option ExpansionManifest}

/-- The name of the directory of a mapped invocation of the source. -/
def ResolvedInput.sibling (ri : ResolvedInput) (i : ℕ) : String :=
  string ri.sourceBlockID ++ "." ++ itoa i

namespace InputContext

/-- The directory of the pipeline holds directories of invocations only. -/
def HoldsInvocations (c : InputContext) (fs : FileSystem) : Prop :=
  ∀ n : FileName, c.pipelineDir ++ [n] ∈ fs →
    ∃ inv : BlockInvocation, inv.Indexed ∧ n.1 = inv.invocationID

def HasSibling (c : InputContext) (fs : FileSystem) (ri : ResolvedInput) (i : ℕ) : Prop :=
  c.pipelineDir.join (ri.sibling i) ∈ fs

/-- What the mapped invocations of the source have put out, each entry with its index. -/
def gathered (c : InputContext) (fs : FileSystem) (ri : ResolvedInput) : Set (ℕ × FileName) :=
  {x | c.HasSibling fs ri x.1 ∧
    ∃ entries, fs.readDir (c.outDir (ri.sibling x.1) ri) = some entries ∧ x.2 ∈ entries}

/-- The name of a gathered link. -/
def gatheredName (x : ℕ × FileName) : String := itoa x.1 ++ "_" ++ x.2.1

def gatheredTarget (c : InputContext) (ri : ResolvedInput) (x : ℕ × FileName) : String :=
  ((c.outDir (ri.sibling x.1) ri).join x.2.1).text

variable {c : InputContext} {base fs : FileSystem} {e : String × ResolvedInput} {d : Disk}
  {ri : ResolvedInput}

omit [UUIDPackage] in
theorem gatheredName_injective : Function.Injective gatheredName := by
  rintro ⟨i, n⟩ ⟨j, m⟩ h
  obtain ⟨hi, hn⟩ := prefixed_inj h
  exact Prod.ext hi (Subtype.ext hn)

theorem plain_sibling (hids : PlainIDs) (ri : ResolvedInput) (i : ℕ) : PlainName (ri.sibling i) :=
  plain_indexed hids _ i

theorem sibling_injective {i j : ℕ} (h : ri.sibling i = ri.sibling j) : i = j :=
  itoa_injective (String.append_right_inj _ |>.mp h)

theorem sibling_eq {inv : BlockInvocation} {i : ℕ} (hid : inv.id = ri.sourceBlockID)
    (hidx : inv.mapIndex = some (i : ℤ)) : inv.invocationID = ri.sibling i := by
  rw [BlockInvocation.invocationID, hidx, hid]
  rfl

theorem idxTag_sibling (ri : ResolvedInput) (i : ℕ) : idxTag (ri.sibling i) = itoa i := by
  have hs : (ri.sibling i).toList =
      (string ri.sourceBlockID).toList ++ '.' :: (itoa (i : ℤ)).toList := by
    simp [ResolvedInput.sibling]
  rw [idxTag, hs, splitLastDot_append (dot_not_mem_itoa i)]
  exact String.ofList_toList

theorem isDir_pipelineDir (hids : PlainIDs) (hm : c.Made base) :
    base.isDir c.pipelineDir = true := by
  obtain ⟨n, -, hn⟩ := workDir_eq (c := c) hids
  unfold FileSystem.isDir
  rw [decide_eq_true_eq, or_iff_not_imp_left]
  exact fun hne => hm.dirs _ hne (hn ▸ List.prefix_append _ _)

/-- With directories of invocations only, the siblings are the mapped invocations. -/
theorem mem_siblings (hids : PlainIDs) (hm : c.Made base) (hholds : c.HoldsInvocations base)
    (ri : ResolvedInput) (n : FileName) : n ∈ c.siblings ri base ↔
      ∃ i, n.1 = ri.sibling i ∧ c.HasSibling base ri i := by
  obtain ⟨names, hread, -, hnames⟩ := FileSystem.readDir_some (isDir_pipelineDir hids hm)
  have hmem : n ∈ c.siblings ri base ↔
      c.pipelineDir ++ [n] ∈ base ∧ (string ri.sourceBlockID ++ ".").toList <+: n.1.toList := by
    rw [siblings, globPrefix, hread, Option.getD_some, List.mem_filter, hnames,
      List.isPrefixOf_iff_prefix]
  rw [hmem]
  constructor
  · rintro ⟨hn, hpre⟩
    obtain ⟨inv, hidx, hinv⟩ := hholds n hn
    obtain ⟨rest, hrest⟩ := hpre
    unfold BlockInvocation.invocationID at hinv
    cases hi : inv.mapIndex with
    | none =>
      rw [hi] at hinv
      dsimp only at hinv
      rw [hinv] at hrest
      exact absurd (hrest ▸ by simp) (string_no_dot inv.id)
    | some k =>
      obtain ⟨i, rfl⟩ := Int.eq_ofNat_of_zero_le (hidx k hi)
      rw [hi] at hinv
      dsimp only at hinv
      have hsplit : (string inv.id).toList ++ '.' :: (itoa (i : ℤ)).toList =
          (string ri.sourceBlockID).toList ++ '.' :: rest := by
        simpa [hinv] using hrest.symm
      have hsrc := ((List.append_cons_inj_of_notMem (string_no_dot inv.id)
        (dot_not_mem_itoa i)).mp hsplit).1
      have hname : n.1 = ri.sibling i := by
        rw [hinv, String.toList_inj.mp hsrc]
        rfl
      refine ⟨i, hname, ?_⟩
      rw [HasSibling, Path.join_plain (plain_sibling hids ri i)]
      have hn' : (⟨ri.sibling i, plain_sibling hids ri i⟩ : FileName) = n := Subtype.ext hname.symm
      rwa [hn']
  · rintro ⟨i, hi, hsib⟩
    rw [HasSibling, Path.join_plain (plain_sibling hids ri i)] at hsib
    have hn : n = ⟨ri.sibling i, plain_sibling hids ri i⟩ := Subtype.ext hi
    refine ⟨hn ▸ hsib, ?_⟩
    refine ⟨(itoa (i : ℤ)).toList, ?_⟩
    rw [hi, ResolvedInput.sibling, ← String.toList_append]

theorem siblings_nodup (hids : PlainIDs) (hm : c.Made base) : (c.siblings ri base).Nodup := by
  obtain ⟨names, hread, hnodup, -⟩ := FileSystem.readDir_some (isDir_pipelineDir hids hm)
  rw [siblings, globPrefix, hread]
  exact hnodup.filter _

theorem siblings_ne_nil (hids : PlainIDs) (hm : c.Made base) (hholds : c.HoldsInvocations base) :
    c.siblings ri base ≠ [] ↔ ∃ i, c.HasSibling base ri i := by
  have hmem := mem_siblings hids hm hholds ri
  constructor
  · intro hne
    obtain ⟨n, hn⟩ := List.exists_mem_of_ne_nil _ hne
    obtain ⟨i, -, hi⟩ := (hmem n).mp hn
    exact ⟨i, hi⟩
  · rintro ⟨i, hi⟩
    exact List.ne_nil_of_mem ((hmem ⟨_, plain_sibling hids ri i⟩).mpr ⟨i, rfl, hi⟩)

/-- The links to the siblings are those to the gathered entries. -/
theorem mem_siblingLinks (hids : PlainIDs) (hm : c.Made base) (hholds : c.HoldsInvocations base)
    {l : String × String} : l ∈ c.siblingLinks base ri (c.siblings ri base) ↔
      ∃ x ∈ c.gathered base ri, l = (gatheredName x, c.gatheredTarget ri x) := by
  have hmem := mem_siblings hids hm hholds ri
  unfold siblingLinks
  rw [List.mem_flatMap]
  constructor
  · rintro ⟨s, hs, hl⟩
    obtain ⟨i, hi, hsib⟩ := (hmem s).mp hs
    rw [hi, idxTag_sibling] at hl
    cases hr : base.readDir (c.outDir (ri.sibling i) ri) with
    | none =>
      rw [hr] at hl
      cases hl
    | some entries =>
      rw [hr] at hl
      obtain ⟨f, hf, rfl⟩ := List.mem_map.mp hl
      exact ⟨(i, f), ⟨hsib, entries, hr, hf⟩, rfl⟩
  · rintro ⟨⟨i, f⟩, ⟨hsib, entries, hr, hf⟩, rfl⟩
    refine ⟨⟨_, plain_sibling hids ri i⟩, (hmem _).mpr ⟨i, rfl, hsib⟩, ?_⟩
    dsimp only at hr hf ⊢
    rw [hr, idxTag_sibling]
    exact List.mem_map.mpr ⟨f, hf, rfl⟩

omit [UUIDPackage] in
theorem entries_nodup {p : Path} {entries : List FileName} (h : fs.readDir p = some entries) :
    entries.Nodup := by
  cases hp : fs.isDir p with
  | false =>
    rw [FileSystem.readDir, hp] at h
    cases h
  | true =>
    obtain ⟨names, hread, hn, -⟩ := FileSystem.readDir_some hp
    rw [h] at hread
    exact Option.some.inj hread ▸ hn

theorem siblingLinks_nodup (hids : PlainIDs) (hm : c.Made base) (hholds : c.HoldsInvocations base) :
    ((c.siblingLinks base ri (c.siblings ri base)).map Prod.fst).Nodup := by
  have hmem := mem_siblings hids hm hholds ri
  obtain ⟨linksOf, heq, hnone, hsome⟩ : ∃ linksOf : FileName → List (String × String),
      (∀ l, c.siblingLinks base ri l = l.flatMap linksOf) ∧
      (∀ s, base.readDir (c.outDir s.1 ri) = none → linksOf s = []) ∧
      ∀ s entries, base.readDir (c.outDir s.1 ri) = some entries →
        linksOf s = entryLinks (c.outDir s.1 ri) (idxTag s.1 ++ "_") entries :=
    ⟨_, fun _ => rfl, fun s hr => by rw [hr], fun s entries hr => by rw [hr]⟩
  -- the names that one sibling gives
  have hnames : ∀ {s : FileName} {i : ℕ}, s.1 = ri.sibling i → ∀ name,
      name ∈ (linksOf s).map Prod.fst → ∃ f : FileName, name = gatheredName (i, f) := by
    intro s i hi name hname
    cases hr : base.readDir (c.outDir s.1 ri) with
    | none =>
      rw [hnone s hr] at hname
      cases hname
    | some entries =>
      rw [hsome s entries hr, hi, idxTag_sibling] at hname
      simp only [entryLinks, List.map_map, List.mem_map] at hname
      obtain ⟨f, -, rfl⟩ := hname
      exact ⟨f, rfl⟩
  rw [heq, List.map_flatMap, List.nodup_flatMap]
  constructor
  · intro s hs
    cases hr : base.readDir (c.outDir s.1 ri) with
    | none =>
      rw [hnone s hr]
      exact List.nodup_nil
    | some entries =>
      rw [hsome s entries hr, entryLinks, List.map_map]
      refine (entries_nodup hr).map fun f g h => Subtype.ext ?_
      exact (String.append_right_inj _).mp h
  · refine (siblings_nodup hids hm).imp_of_mem fun hs ht hne => ?_
    obtain ⟨i, hi, -⟩ := (hmem _).mp hs
    obtain ⟨j, hj, -⟩ := (hmem _).mp ht
    intro name hname hname'
    obtain ⟨f, rfl⟩ := hnames hi _ hname
    obtain ⟨g, hg⟩ := hnames hj _ hname'
    have hij := congrArg Prod.fst (gatheredName_injective hg)
    dsimp only at hij
    exact hne (Subtype.ext (by rw [hi, hj, hij]))

/-! A set-up that gets through. -/

variable {resolved : GoMap String ResolvedInput} {σ : MapOrder} {d : Disk}

theorem Made.reached (hm : c.Made base) {es : List (String × ResolvedInput)} :
    c.Reached yamlExpansion base es base where
  outside _ _ := rfl
  dirs _ := .inl (hm.empty _ (below_append (List.cons_ne_nil _ _)))
  links p hp _ := .inl (hm.empty p hp)

theorem setup_iff (hids : PlainIDs) (hm : c.Made base)
    (hplain : ∀ e ∈ resolved.items, PlainName e.1 ∧ PlainName e.2.sourceOutputName) :
    (∃ d, c.setupInputSymlinks yamlExpansion σ c.workDir resolved ⟨base, none⟩ = .ok d) ↔
      ∀ e ∈ resolved.items, c.Fits yamlExpansion base e := by
  have hmem : ∀ e, e ∈ σ.range resolved ↔ e ∈ resolved.items := fun e => (σ.range_perm resolved).mem_iff
  have hplain' := fun e he => hplain e ((hmem e).mp he)
  constructor
  · rintro ⟨d, h⟩ e he
    exact ((setup_ok hids hm hm.reached (fun e he => (hmem e).mp he) hplain' rfl h).1 e
      ((hmem e).mpr he)).1
  · intro hfits
    refine setup_made hids hm hm.reached (fun e he => (hmem e).mp he) hplain' rfl
      (σ.range_nodup resolved) fun e he => ⟨hfits e ((hmem e).mp he), fun l hl x hx => ?_⟩
    obtain ⟨l', hl', hnames, -⟩ := hfits e ((hmem e).mp he)
    rw [hl] at hl'
    cases hl'
    exact hm.empty _ (plain_below (hplain' e he).1 hnames x hx)

theorem setup_reached (hids : PlainIDs) (hm : c.Made base)
    (hplain : ∀ e ∈ resolved.items, PlainName e.1 ∧ PlainName e.2.sourceOutputName)
    (h : c.setupInputSymlinks yamlExpansion σ c.workDir resolved ⟨base, none⟩ = .ok d) :
    c.Reached yamlExpansion base resolved.items d.fs := by
  have hmem : ∀ e ∈ σ.range resolved, e ∈ resolved.items :=
    fun e he => (σ.range_perm resolved).mem_iff.mp he
  have hr := reached_setup (d := ⟨base, none⟩) hids hm
    (hm.reached : c.Reached yamlExpansion base resolved.items base) hmem
    fun e he => hplain e (hmem e he)
  unfold setupInputSymlinks at h
  rwa [h] at hr

theorem link_path_inj {e e' : String × ResolvedInput} {n : FileName} {s : String}
    (he : PlainName e.1) (he' : PlainName e'.1) (hs : PlainName s)
    (h : c.inputsDir ++ [⟨e.1, he⟩] ++ [n] = c.inputsDir ++ [⟨e'.1, he'⟩] ++ [⟨s, hs⟩]) :
    e.1 = e'.1 ∧ n.1 = s := by
  rw [List.append_assoc, List.append_assoc] at h
  obtain ⟨hdir, hname⟩ := List.cons.inj (List.append_cancel_left h)
  exact ⟨congrArg Subtype.val hdir, congrArg Subtype.val (List.cons.inj hname).1⟩

/-- The directory of an input holds its links, and nothing else. -/
theorem setup_names (hids : PlainIDs) (hm : c.Made base)
    (hplain : ∀ e ∈ resolved.items, PlainName e.1 ∧ PlainName e.2.sourceOutputName)
    (h : c.setupInputSymlinks yamlExpansion σ c.workDir resolved ⟨base, none⟩ = .ok d)
    (he : e ∈ resolved.items) {l : List (String × String)} (hl : c.links yamlExpansion base e = some l) :
    ∃ names, d.fs.readDir (c.linkDir e) = some names ∧ (∀ n, n ∈ names ↔ n.1 ∈ l.map Prod.fst) ∧
      ∀ x ∈ l, d.fs.lookup ((c.linkDir e).join x.1) = some (.link x.2) := by
  have hmem : ∀ e, e ∈ σ.range resolved ↔ e ∈ resolved.items := fun e => (σ.range_perm resolved).mem_iff
  have hplain' := fun e he => hplain e ((hmem e).mp he)
  have hfits := (setup_iff hids hm hplain).mp ⟨d, h⟩
  have hlinks := (setup_ok hids hm hm.reached (fun e he => (hmem e).mp he) hplain' rfl h).2
  have hr := setup_reached hids hm hplain h
  have hname := (hplain e he).1
  have hdir : d.fs.lookup (c.linkDir e) = some .dir := by
    rw [linkDir_eq hname, setup_dirs hids hm hm.reached (fun e he => (hmem e).mp he) hplain' h,
      if_pos (List.mem_map.mpr ⟨e, (hmem e).mpr he, rfl⟩)]
  have hmade : ∀ x ∈ l, d.fs.lookup ((c.linkDir e).join x.1) = some (.link x.2) := fun x hx =>
    (hlinks _ _).mpr (.inr ⟨e, (hmem e).mpr he, l, hl, x, hx, rfl, rfl⟩)
  obtain ⟨names, hread, -, hnames⟩ := FileSystem.readDir_some
    (show d.fs.isDir (c.linkDir e) = true by simp [FileSystem.isDir, hdir])
  refine ⟨names, hread, fun n => ?_, hmade⟩
  obtain ⟨l', hl', hplains, -⟩ := hfits e he
  rw [hl] at hl'
  cases hl'
  rw [hnames, GoMap.mem_iff_lookup]
  constructor
  · rintro ⟨node, hnode⟩
    rw [linkDir_eq hname] at hnode
    rcases hr.links (c.inputsDir ++ [⟨e.1, hname⟩] ++ [n])
      (by rw [List.append_assoc]; exact below_append (by simp)) (fun m => by simp) with
      hnone | ⟨target, -, e', he', l', hl', x, hx, hpath, -⟩
    · rw [hnode] at hnone
      cases hnone
    · obtain ⟨l'', hl'', hplains', -⟩ := hfits e' he'
      rw [hl'] at hl''
      cases hl''
      rw [linkDir_eq (hplain e' he').1, Path.join_plain (hplains' x hx)] at hpath
      obtain ⟨hkey, hn⟩ := link_path_inj _ _ _ hpath
      have hee : e' = e := List.inj_on_of_nodup_map resolved.items_nodup he' he hkey.symm
      rw [hee, hl] at hl'
      cases hl'
      exact List.mem_map.mpr ⟨x, hx, hn.symm⟩
  · intro hn
    obtain ⟨x, hx, hxn⟩ := List.mem_map.mp hn
    have hx' : (⟨x.1, hplains x hx⟩ : FileName) = n := Subtype.ext hxn
    exact ⟨.link x.2, by rw [← hmade x hx, Path.join_plain (hplains x hx), hx']⟩

/-- Links that are those to the elements of a set, under different names. -/
theorem setup_linksTo (hids : PlainIDs) (hm : c.Made base)
    (hplain : ∀ e ∈ resolved.items, PlainName e.1 ∧ PlainName e.2.sourceOutputName)
    (h : c.setupInputSymlinks yamlExpansion σ c.workDir resolved ⟨base, none⟩ = .ok d)
    (he : e ∈ resolved.items) {l : List (String × String)} (hl : c.links yamlExpansion base e = some l)
    {A : Type} {name target : A → String} {s : Set A} (hinj : Set.InjOn name s)
    (hs : ∀ x, x ∈ l ↔ ∃ a ∈ s, x = (name a, target a)) :
    LinksTo d.fs (c.linkDir e) name target s := by
  obtain ⟨names, hread, hnames, hlinks⟩ := setup_names hids hm hplain h he hl
  obtain ⟨l', hl', hplains, -⟩ := (setup_iff hids hm hplain).mp ⟨d, h⟩ e he
  rw [hl] at hl'
  cases hl'
  have hmem : ∀ a ∈ s, (name a, target a) ∈ l := fun a ha => (hs _).mpr ⟨a, ha, rfl⟩
  refine ⟨names, hread, ⟨fun a ha => ?_, hinj, ?_⟩, fun a ha => hlinks (name a, target a) (hmem a ha)⟩
  · exact ⟨⟨name a, hplains _ (hmem a ha)⟩, (hnames _).mpr (List.mem_map.mpr ⟨_, hmem a ha, rfl⟩), rfl⟩
  · rintro n ⟨f, hf, rfl⟩
    obtain ⟨x, hx, hxf⟩ := List.mem_map.mp ((hnames f).mp hf)
    obtain ⟨a, ha, rfl⟩ := (hs x).mp hx
    exact ⟨a, ha, hxf⟩

/-! The inputs of a reduce invocation. -/

/-- Where a source that is not mapped puts out. -/
def sourceOut (c : InputContext) (ri : ResolvedInput) : Path := c.outDir (string ri.sourceBlockID) ri

theorem links_gathered (hids : PlainIDs) (hm : c.Made base) (hholds : c.HoldsInvocations base)
    (hreduce : c.manifest.kind = .reduce) (hidx : c.invocation.mapIndex = none) {i : ℕ}
    (hsib : c.HasSibling base e.2 i) : c.links yamlExpansion base e =
      some (c.siblingLinks base e.2 (c.siblings e.2 base)) := by
  unfold InputContext.links
  rw [hidx]
  exact if_pos ⟨hreduce, (siblings_ne_nil hids hm hholds).mpr ⟨i, hsib⟩⟩

theorem links_source (hids : PlainIDs) (hm : c.Made base) (hholds : c.HoldsInvocations base)
    (hidx : c.invocation.mapIndex = none) (hno : ∀ i, ¬c.HasSibling base e.2 i) :
    c.links yamlExpansion base e =
      (base.readDir (c.sourceOut e.2)).map (entryLinks (c.sourceOut e.2) "") := by
  unfold InputContext.links sourceLinks sourceDir
  rw [hidx]
  exact if_neg fun h => ((siblings_ne_nil hids hm hholds).mp h.2).elim hno

theorem fits_iff (hids : PlainIDs) (hm : c.Made base) (hholds : c.HoldsInvocations base)
    (hreduce : c.manifest.kind = .reduce) (hidx : c.invocation.mapIndex = none) :
    c.Fits yamlExpansion base e ↔
      (∃ i, c.HasSibling base e.2 i) ∨ base.readDir (c.sourceOut e.2) ≠ none := by
  by_cases hsib : ∃ i, c.HasSibling base e.2 i
  · obtain ⟨i, hi⟩ := hsib
    exact iff_of_true ⟨_, links_gathered hids hm hholds hreduce hidx hi, siblingLinks_plain _ _ _,
      siblingLinks_nodup hids hm hholds⟩ (.inl ⟨i, hi⟩)
  · rw [or_iff_right hsib]
    push Not at hsib
    unfold Fits
    rw [links_source hids hm hholds hidx hsib]
    cases hr : base.readDir (c.sourceOut e.2) with
    | none => simp
    | some entries =>
      refine iff_of_true ⟨_, rfl, entryLinks_plain (.inl rfl), ?_⟩ (Option.some_ne_none _)
      rw [entryLinks, List.map_map]
      exact (entries_nodup hr).map fun f g h => Subtype.ext ((String.append_right_inj _).mp h)

/-- An input of a reduce invocation holds a link for each entry of each mapped invocation of
its source or, if there is none, for each entry of the source itself. -/
theorem reduce_linksTo (hids : PlainIDs) (hm : c.Made base) (hholds : c.HoldsInvocations base)
    (hreduce : c.manifest.kind = .reduce) (hidx : c.invocation.mapIndex = none)
    (hplain : ∀ e ∈ resolved.items, PlainName e.1 ∧ PlainName e.2.sourceOutputName)
    (h : c.setupInputSymlinks yamlExpansion σ c.workDir resolved ⟨base, none⟩ = .ok d)
    (he : e ∈ resolved.items) :
    ((∃ i, c.HasSibling base e.2 i) →
      LinksTo d.fs (c.linkDir e) gatheredName (c.gatheredTarget e.2) (c.gathered base e.2)) ∧
    ((∀ i, ¬c.HasSibling base e.2 i) → ∀ entries, base.readDir (c.sourceOut e.2) = some entries →
      LinksTo d.fs (c.linkDir e) Subtype.val (fun n => ((c.sourceOut e.2).join n.1).text)
        {n | n ∈ entries}) := by
  constructor
  · rintro ⟨i, hi⟩
    exact setup_linksTo hids hm hplain h he (links_gathered hids hm hholds hreduce hidx hi)
      gatheredName_injective.injOn fun x => mem_siblingLinks hids hm hholds
  · intro hno entries hr
    have hl : c.links yamlExpansion base e = some (entryLinks (c.sourceOut e.2) "" entries) := by
      rw [links_source hids hm hholds hidx hno, hr, Option.map_some]
    refine setup_linksTo hids hm hplain h he hl Subtype.val_injective.injOn fun x => ?_
    simp only [entryLinks, List.mem_map, String.empty_append]
    exact exists_congr fun n => and_congr_right fun _ => eq_comm

end InputContext
end Spade

namespace Spade.InputContext
open Uuid

/-- The directory of a fresh reduce invocation is set up if and only if each of its inputs has a
mapped invocation of its source, or else the directory of the source can be read. -/
theorem reduce_gathers (yamlExpansion : String → Option ExpansionManifest) (c : InputContext)
    (resolved : GoMap String ResolvedInput) (base : FileSystem) (σ : MapOrder)
    (hreduce : c.manifest.kind = .reduce) (hidx : c.invocation.mapIndex = none)
    (hplain : ∀ e ∈ resolved.items, PlainName e.1 ∧ PlainName e.2.sourceOutputName)
    (hfresh : c.Made base) (hholds : c.HoldsInvocations base) :
    ((∃ d, c.setupInputSymlinks yamlExpansion σ c.workDir resolved ⟨base, none⟩ = .ok d) ↔
      ∀ e ∈ resolved.items,
        (∃ i, c.HasSibling base e.2 i) ∨ base.readDir (c.sourceOut e.2) ≠ none) ∧
    ∀ d, c.setupInputSymlinks yamlExpansion σ c.workDir resolved ⟨base, none⟩ = .ok d →
      ∀ e ∈ resolved.items,
        ((∃ i, c.HasSibling base e.2 i) →
          LinksTo d.fs (c.linkDir e) gatheredName (c.gatheredTarget e.2) (c.gathered base e.2)) ∧
        ((∀ i, ¬c.HasSibling base e.2 i) → ∀ entries, base.readDir (c.sourceOut e.2) = some entries →
          LinksTo d.fs (c.linkDir e) Subtype.val (fun n => ((c.sourceOut e.2).join n.1).text)
            {n | n ∈ entries}) := by
  constructor
  · rw [setup_iff plainIDs hfresh hplain]
    exact forall₂_congr fun e _ => fits_iff plainIDs hfresh hholds hreduce hidx
  · exact fun d h e he => reduce_linksTo plainIDs hfresh hholds hreduce hidx hplain h he

end Spade.InputContext

namespace Spade.Samples
open Uuid InputContext

/-- The reduce block of the pipeline with a mapped block, which reads the mapped block. -/
def mergeContext : InputContext where
  pipelineDir := Path.join [] "work"
  invocation := (block "merge" 4 [3]).invocation (pipelineID 4) none
  manifest := { id := "merge", kind := .reduce }
  depManifests := (∅ : GoMap UUID BlockManifest).insert (blockID 3) { id := "step", kind := .standard }

def mergeInput : ResolvedInput := ⟨"parts", blockID 3, "out", { type := "collection" }⟩

def mergeInputs : GoMap String ResolvedInput := (∅ : GoMap String ResolvedInput).insert "parts" mergeInput

/-- Where an invocation of the mapped block puts out. -/
def stepOut (i : ℕ) : Path := mergeContext.outDir (mergeInput.sibling i) mergeInput

def partName : FileName := ⟨"a.txt", by decide⟩

/-- The directory of the reduce invocation next to those of `N` mapped invocations, each of which
has put out a file of one name. -/
def mergeStart : ℕ → FileSystem
  | 0 => Disk.left (createBlockDirectory mergeContext.invocation.invocationID
      mergeContext.pipelineDir ⟨∅, none⟩)
  | N + 1 => ((FileSystem.mkdirAll (stepOut N) (mergeStart N)).getD (mergeStart N)).insert
      (stepOut N ++ [partName]) (.file "")

theorem stepOut_eq (i : ℕ) : stepOut i = mergeContext.pipelineDir ++
    [⟨mergeInput.sibling i, plain_sibling plainIDs _ _⟩, outputsName, ⟨"out", by decide⟩] :=
  outDir_eq (plain_sibling plainIDs _ _) (by decide)

theorem stepOut_off {q : Path} {i j : ℕ} (h : q <+: stepOut i) : q ≠ stepOut j ++ [partName] := by
  intro hq
  have hlen := h.length_le
  rw [hq, stepOut_eq, stepOut_eq] at hlen
  simp at hlen

instance (q : Path) : Decidable (mergeContext.DirOf q) := inferInstanceAs (Decidable (_ ∧ _))

theorem mergeStart_lookup (N : ℕ) (q : Path) : (mergeStart N).lookup q =
    if ∃ i < N, q = stepOut i ++ [partName] then some (.file "")
    else if q ≠ [] ∧ ∃ i < N, q <+: stepOut i then some .dir
    else if mergeContext.DirOf q then some .dir else none := by
  induction N generalizing q with
  | zero =>
    obtain ⟨d, hd, -⟩ := create_made (c := mergeContext) (d := ⟨∅, none⟩) rfl fun _ _ => .inl rfl
    obtain ⟨-, hdir, hsame⟩ := create_ok hd
    have hstart : mergeStart 0 = d.fs := congrArg Disk.left hd
    rw [hstart, if_neg (by simp), if_neg (by simp)]
    split_ifs with hq
    · exact hdir q hq
    · exact hsame q hq
  | succ N ih =>
    obtain ⟨fs, hfs⟩ : ∃ fs, FileSystem.mkdirAll (stepOut N) (mergeStart N) = some fs := by
      refine FileSystem.mkdirAll_ok fun p _ hp => ?_
      have hoff : ¬∃ i < N, p = stepOut i ++ [partName] := by
        rintro ⟨i, -, hi⟩
        exact stepOut_off hp hi
      rw [ih, if_neg hoff]
      split_ifs <;> simp
    rw [mergeStart, hfs, Option.getD_some, GoMap.lookup_insert_if, FileSystem.mkdirAll_lookup hfs, ih]
    simp only [Nat.lt_succ_iff_lt_or_eq, or_and_right, exists_or, exists_eq_left, and_or_left]
    by_cases hfile : q = stepOut N ++ [partName]
    · rw [if_pos hfile, if_pos (.inr hfile)]
    rw [if_neg hfile]
    by_cases hdir : q ≠ [] ∧ q <+: stepOut N
    · have hoff : ¬∃ i < N, q = stepOut i ++ [partName] := by
        rintro ⟨i, -, hi⟩
        exact stepOut_off hdir.2 hi
      rw [if_pos hdir, if_neg fun h => h.elim hoff hfile, if_pos (.inr hdir)]
    · simp only [hfile, hdir, or_false, ↓reduceIte]

variable {N : ℕ}

theorem merge_ne_sibling (i : ℕ) (n : FileName) (hn : n.1 = mergeContext.invocation.invocationID) :
    (⟨mergeInput.sibling i, plain_sibling plainIDs _ _⟩ : FileName) ≠ n := by
  intro heq
  have hdot := Uuid.string_no_dot (blockID 4)
  rw [show Uuid.string (blockID 4) = mergeInput.sibling i from hn.symm.trans (congrArg Subtype.val heq).symm] at hdot
  exact hdot (by simp [ResolvedInput.sibling])

theorem mergeWork : ∃ n : FileName, n.1 = mergeContext.invocation.invocationID ∧
    mergeContext.workDir = mergeContext.pipelineDir ++ [n] ∧
    mergeContext.inputsDir = mergeContext.pipelineDir ++ [n, inputsName] := by
  refine ⟨⟨_, plain_invocation plainIDs _⟩, rfl, Path.join_plain _ _, ?_⟩
  rw [inputsDir, workDir, Path.join_plain (plain_invocation plainIDs mergeContext.invocation),
    join_inputs, List.append_assoc]
  rfl

/-- What lies in the directory of the reduce invocation is not put out by another. -/
theorem merge_off {q : Path} {i : ℕ} (h : mergeContext.workDir <+: q) :
    ¬q <+: stepOut i ++ [partName] := by
  intro hp
  obtain ⟨n, hn, hwork, -⟩ := mergeWork
  have hboth := h.trans hp
  rw [hwork, stepOut_eq, List.append_assoc, List.prefix_append_right_inj] at hboth
  have hname := (List.cons_prefix_cons.mp hboth).1
  exact merge_ne_sibling i n hn hname.symm

theorem mergeStart_work {q : Path} (h : mergeContext.workDir <+: q) :
    (mergeStart N).lookup q = if mergeContext.DirOf q then some .dir else none := by
  rw [mergeStart_lookup, if_neg, if_neg]
  · rintro ⟨-, i, -, hi⟩
    exact merge_off h (hi.trans (List.prefix_append _ _))
  · rintro ⟨i, -, hi⟩
    rw [hi] at h
    exact merge_off h (List.prefix_refl _)

theorem mergeSub : ∀ sub ∈ ["", "inputs", "outputs", "logs"],
    mergeContext.workDir <+: mergeContext.workDir.join sub ∧
      (mergeContext.workDir.join sub).length ≤ 3 := by decide

theorem mergeStart_dir {q : Path} (h : mergeContext.DirOf q) : (mergeStart N).lookup q = some .dir := by
  rw [mergeStart_lookup, if_pos h, if_neg, ite_self]
  rintro ⟨i, -, hi⟩
  obtain ⟨-, sub, hsub, hp⟩ := h
  rw [hi] at hp
  have hlen := hp.length_le.trans (mergeSub sub hsub).2
  rw [stepOut_eq] at hlen
  simp at hlen

theorem mergeStart_made : mergeContext.Made (mergeStart N) where
  dirs q hq hp := mergeStart_dir ⟨hq, "inputs", by simp, hp⟩
  empty q hq := by
    rw [mergeStart_work (workDir_below hq), if_neg]
    exact fun h => not_below_dir plainIDs h hq

/-- The directory of the pipeline holds those of the invocations. -/
theorem mergeStart_child (n : FileName) : mergeContext.pipelineDir ++ [n] ∈ mergeStart N ↔
    (∃ i < N, n.1 = mergeInput.sibling i) ∨ n.1 = mergeContext.invocation.invocationID := by
  obtain ⟨m, hm, hwork, -⟩ := mergeWork
  constructor
  · intro hn
    obtain ⟨node, hnode⟩ := GoMap.lookup_of_mem hn
    rw [mergeStart_lookup] at hnode
    split_ifs at hnode with hfile hdir hsub
    · obtain ⟨i, -, hi⟩ := hfile
      have hlen := congrArg List.length hi
      rw [stepOut_eq] at hlen
      simp at hlen
    · obtain ⟨-, i, hlt, hi⟩ := hdir
      rw [stepOut_eq, List.prefix_append_right_inj] at hi
      exact .inl ⟨i, hlt, congrArg Subtype.val (List.cons_prefix_cons.mp hi).1⟩
    · obtain ⟨-, sub, hmem, hp⟩ := hsub
      have hpre := List.prefix_of_prefix_length_le (mergeSub sub hmem).1 hp (by rw [hwork]; simp)
      rw [hwork, List.prefix_append_right_inj] at hpre
      exact .inr (by rw [← hm, (List.cons_prefix_cons.mp hpre).1])
  · rintro (⟨i, hi, hn⟩ | hn)
    · obtain rfl : n = ⟨mergeInput.sibling i, plain_sibling plainIDs _ _⟩ := Subtype.ext hn
      have hpre : mergeContext.pipelineDir ++ [⟨mergeInput.sibling i, plain_sibling plainIDs _ _⟩] <+:
          stepOut i := by
        rw [stepOut_eq, List.prefix_append_right_inj]
        exact ⟨_, rfl⟩
      refine GoMap.mem_of_lookup (v := .dir) ?_
      rw [mergeStart_lookup, if_neg, if_pos ⟨by simp, i, hi, hpre⟩]
      rintro ⟨j, -, hj⟩
      exact stepOut_off hpre hj
    · obtain rfl : n = m := Subtype.ext (hn.trans hm.symm)
      rw [← hwork]
      refine GoMap.mem_of_lookup (mergeStart_dir ⟨by rw [hwork]; simp, "", by simp, ?_⟩)
      rw [Path.join_empty]

theorem mergeStart_sibling (i : ℕ) :
    mergeContext.HasSibling (mergeStart N) mergeInput i ↔ i < N := by
  unfold HasSibling
  rw [Path.join_plain (plain_sibling plainIDs mergeInput i), mergeStart_child]
  constructor
  · rintro (⟨j, hj, hij⟩ | hmerge)
    · rwa [sibling_injective hij]
    · exact absurd rfl (merge_ne_sibling i ⟨_, plain_sibling plainIDs _ _⟩ hmerge)
  · exact fun h => .inl ⟨i, h, rfl⟩

def stepInvocation (i : ℕ) : BlockInvocation :=
  (block "step" 3 [2]).invocation (pipelineID 4) (some i)

theorem mergeStart_holds : mergeContext.HoldsInvocations (mergeStart N) := by
  intro n hn
  rcases (mergeStart_child n).mp hn with ⟨i, -, hi⟩ | hmerge
  · have hid : (stepInvocation i).invocationID = mergeInput.sibling i := sibling_eq rfl rfl
    exact ⟨stepInvocation i, fun _ hk => Option.some.inj hk ▸ Int.natCast_nonneg i, by rw [hi, hid]⟩
  · have hidx : mergeContext.invocation.Indexed := by
      intro i hi
      cases hi
    exact ⟨mergeContext.invocation, hidx, hmerge⟩

theorem mergeInputs_items : mergeInputs.items = [("parts", mergeInput)] := rfl

theorem mergeInputs_plain : ∀ e ∈ mergeInputs.items, PlainName e.1 ∧ PlainName e.2.sourceOutputName := by
  decide

end Spade.Samples

namespace Spade.InputContext
open Samples Uuid

/-- Two mapped invocations have put out files of one name. -/
theorem reduce_gathers_two : ∃ d,
    mergeContext.setupInputSymlinks (fun _ => none) .stored mergeContext.workDir mergeInputs
      ⟨mergeStart 2, none⟩ = .ok d ∧
    ∀ e ∈ mergeInputs.items, LinksTo d.fs (mergeContext.linkDir e) gatheredName
      (mergeContext.gatheredTarget e.2) (mergeContext.gathered (mergeStart 2) e.2) := by
  have hsib : ∀ e ∈ mergeInputs.items, ∃ i, mergeContext.HasSibling (mergeStart 2) e.2 i := by
    intro e he
    rw [mergeInputs_items, List.mem_singleton] at he
    exact ⟨1, he ▸ (mergeStart_sibling 1).mpr (by omega)⟩
  obtain ⟨hok, hlinks⟩ := reduce_gathers (fun _ => none) mergeContext mergeInputs (mergeStart 2)
    .stored rfl rfl mergeInputs_plain mergeStart_made mergeStart_holds
  obtain ⟨d, hd⟩ := hok.mpr fun e he => .inl (hsib e he)
  exact ⟨d, hd, fun e he => (hlinks d hd e he).1 (hsib e he)⟩

/-- There is no mapped invocation, and the source has put out nothing. -/
theorem reduce_gathers_fails : mergeContext.Made (mergeStart 0) ∧
    mergeContext.HoldsInvocations (mergeStart 0) ∧
    (∀ i, ¬mergeContext.HasSibling (mergeStart 0) mergeInput i) ∧
    ∀ d, mergeContext.setupInputSymlinks (fun _ => none) .stored mergeContext.workDir mergeInputs
      ⟨mergeStart 0, none⟩ ≠ .ok d := by
  have hno : ∀ i, ¬mergeContext.HasSibling (mergeStart 0) mergeInput i :=
    fun i h => Nat.not_lt_zero i ((mergeStart_sibling i).mp h)
  have hread : (mergeStart 0).readDir (mergeContext.sourceOut mergeInput) = none := by
    have hout : PlainName mergeInput.sourceOutputName := by decide
    have hpath := outDir_eq (c := mergeContext) (plain_id plainIDs mergeInput.sourceBlockID) hout
    refine if_neg ?_
    unfold FileSystem.isDir
    rw [sourceOut, hpath, mergeStart_lookup, if_neg (by simp), if_neg (by simp), if_neg]
    · simp
    · rintro ⟨-, sub, hsub, hp⟩
      have hlen := hp.length_le.trans (mergeSub sub hsub).2
      have hpipe : mergeContext.pipelineDir ≠ [] := by decide
      simp only [List.length_append, List.length_cons, List.length_nil] at hlen
      exact hpipe (List.eq_nil_of_length_eq_zero (by omega))
  refine ⟨mergeStart_made, mergeStart_holds, hno, fun d hd => ?_⟩
  have hfits := (setup_iff plainIDs mergeStart_made mergeInputs_plain).mp ⟨d, hd⟩ ("parts", mergeInput)
    (by rw [mergeInputs_items]; exact List.mem_singleton_self _)
  rcases (fits_iff plainIDs mergeStart_made mergeStart_holds rfl rfl).mp hfits with ⟨i, hi⟩ | hsome
  · exact hno i hi
  · exact hsome hread

end Spade.InputContext
