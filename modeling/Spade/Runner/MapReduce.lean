import Mathlib.Data.Nat.Log
import Spade.Lib.Following
import Spade.Runner.Gather

set_option autoImplicit false

/-!
# A reduce block directly after a map block

The map block has no mapped invocations, so that the reduce block is linked to what lies in the
output directory: the manifest of the expansion itself, and not the items.
-/
namespace Spade
open UUIDPackage Disk FileSystem

/-- The directory holds a link to each of the targets, and nothing else. -/
def Gathers (fs : FileSystem) (dir : Path) (targets : List String) : Prop :=
  ∃ names, fs.readDir dir = some names ∧
    (names.map fun n => fs.lookup (dir ++ [n])).Perm (targets.map fun t => some (.link t))

/-- A directory with links to what a list names receives just that. -/
theorem LinksTo.gathers_iff {fs : FileSystem} {dir : Path} {target : FileName → String}
    {entries : List FileName} (hn : entries.Nodup)
    (h : LinksTo fs dir Subtype.val target {n | n ∈ entries}) (targets : List String) :
    Gathers fs dir targets ↔ (entries.map target).Perm targets := by
  obtain ⟨names, hread, hbij, hlinks⟩ := h
  have hperm : names.Perm entries := by
    have hnames : names.Nodup := InputContext.entries_nodup hread
    refine (List.perm_ext_iff_of_nodup hnames hn).mpr fun n => ⟨fun hmem => ?_, fun hmem => ?_⟩
    · obtain ⟨m, hm, hval⟩ := hbij.surjOn ⟨n, hmem, rfl⟩
      exact Subtype.ext hval ▸ hm
    · obtain ⟨m, hm, hval⟩ := hbij.mapsTo hmem
      exact Subtype.ext hval ▸ hm
  have hlookup : (names.map fun n => fs.lookup (dir ++ [n])).Perm
      ((entries.map target).map fun t => some (.link t)) := by
    refine (hperm.map _).trans (List.Perm.of_eq ?_)
    rw [List.map_map]
    refine List.map_congr_left fun n hmem => ?_
    rw [Function.comp_apply, ← hlinks n hmem, Path.join_plain n.2]
  have hinj : Function.Injective fun t : String => some (Node.link t) := by
    intro s t hst
    simpa using hst
  rw [← List.map_perm_map_iff hinj]
  constructor
  · rintro ⟨names', hread', hp⟩
    rw [hread] at hread'
    obtain rfl := Option.some.inj hread'
    exact hlookup.symm.trans hp
  · exact fun hp => ⟨names, hread, hlookup.trans hp⟩

namespace InputContext
variable [UUIDPackage] {yamlExpansion : String → Option ExpansionManifest} {c : InputContext}
  {base : FileSystem} {e : String × ResolvedInput} {resolved : GoMap String ResolvedInput}
  {σ : MapOrder} {d : Disk}

/-- The files of the items of an expansion. -/
def itemTargets (c : InputContext) (src : UUID) (items : List ExpansionItem) : List String :=
  items.map (c.itemTarget src)

theorem receives_items_iff (hids : PlainIDs) (hm : c.Made base) (hholds : c.HoldsInvocations base)
    (hreduce : c.manifest.kind = .reduce) (hidx : c.invocation.mapIndex = none)
    (hplain : ∀ e ∈ resolved.items, PlainName e.1 ∧ PlainName e.2.sourceOutputName)
    (h : c.setupInputSymlinks yamlExpansion σ c.workDir resolved ⟨base, none⟩ = .ok d)
    (he : e ∈ resolved.items) (hno : ∀ i, ¬c.HasSibling base e.2 i) (items : List ExpansionItem) :
    Gathers d.fs (c.linkDir e) (c.itemTargets e.2.sourceBlockID items) ↔
      ∃ entries, base.readDir (c.sourceOut e.2) = some entries ∧
        (entries.map fun n => ((c.sourceOut e.2).join n.1).text).Perm
          (c.itemTargets e.2.sourceBlockID items) := by
  have hfits := (setup_iff hids hm hplain).mp ⟨d, h⟩ e he
  rcases (fits_iff hids hm hholds hreduce hidx).mp hfits with ⟨i, hi⟩ | hread
  · exact absurd hi (hno i)
  obtain ⟨entries, hentries⟩ := Option.ne_none_iff_exists'.mp hread
  have hlinks := (reduce_linksTo hids hm hholds hreduce hidx hplain h he).2 hno entries hentries
  rw [hlinks.gathers_iff (entries_nodup hentries)]
  constructor
  · exact fun hp => ⟨entries, hentries, hp⟩
  · rintro ⟨entries', hentries', hp⟩
    rw [hentries] at hentries'
    obtain rfl := Option.some.inj hentries'
    exact hp

/-- Without an item for the manifest of the expansion, the items are not received. -/
theorem not_receives (hids : PlainIDs) (hm : c.Made base) (hholds : c.HoldsInvocations base)
    (hreduce : c.manifest.kind = .reduce) (hidx : c.invocation.mapIndex = none)
    (hplain : ∀ e ∈ resolved.items, PlainName e.1 ∧ PlainName e.2.sourceOutputName)
    (h : c.setupInputSymlinks yamlExpansion σ c.workDir resolved ⟨base, none⟩ = .ok d)
    (he : e ∈ resolved.items) (hno : ∀ i, ¬c.HasSibling base e.2 i) {exp : ExpansionManifest}
    (hexp : loadExpansionManifest yamlExpansion ((c.sourceOut e.2).join "expansion.yaml") base = some exp)
    (hitems : ((c.sourceOut e.2).join "expansion.yaml").text ∉
      c.itemTargets e.2.sourceBlockID exp.items) :
    ¬Gathers d.fs (c.linkDir e) (c.itemTargets e.2.sourceBlockID exp.items) := by
  rw [receives_items_iff hids hm hholds hreduce hidx hplain h he hno]
  rintro ⟨entries, hread, hperm⟩
  have hdir : base.isDir (c.sourceOut e.2) = true := by
    unfold readDir at hread
    split_ifs at hread with hd
    exact hd
  obtain ⟨entries', hread', -, hmem⟩ := readDir_some hdir
  rw [hread] at hread'
  obtain rfl := Option.some.inj hread'
  have hthere : c.sourceOut e.2 ++ [expansionName] ∈ base := by
    obtain ⟨content, hcontent, -⟩ := Option.bind_eq_some_iff.mp hexp
    rw [join_expansion] at hcontent
    by_contra hmem
    rw [readFile, AList.lookup_eq_none.mpr hmem] at hcontent
    cases hcontent
  exact hitems (hperm.mem_iff.mp (List.mem_map.mpr ⟨expansionName, (hmem _).mpr hthere, rfl⟩))

end InputContext

/-! The expansions that the blocks of the base library write. -/

theorem Path.join_append (p : Path) (s t : String) : p.join (s ++ "/" ++ t) = (p.join s).join t := by
  have hchars : (s ++ "/" ++ t).toList = s.toList ++ '/' :: t.toList := by simp
  rw [join, hchars, List.splitOn_append_cons_self, List.map_append, List.foldl_append]
  rfl

theorem Path.text_inj {p q : Path} (hp : p ≠ []) (hq : q ≠ []) (h : p.text = q.text) : p = q := by
  have hc := congrArg components h
  rw [components_text hp, components_text hq] at hc
  exact (List.map_injective_iff.mpr Subtype.val_injective) (List.cons.inj hc).2

/-- `format!("{:0width$}")`. -/
def zeroPadded (width n : ℕ) : String :=
  String.ofList (List.replicate (width - (itoa n).length) '0') ++ itoa n

/-- The items of `materialise_scalar_items`, by their keys. -/
def materialiseScalarItems (keys : List String) : List ExpansionItem :=
  let width := max (Nat.log 10 (max keys.length 1) + 1) 2
  keys.zipIdx.map fun e => ⟨"outputs/manifest/items/" ++ zeroPadded width e.2 ++ ".json", e.1⟩

/-- The items of `map_files`, for files of its input with their keys. -/
def mapFilesItems (source : FileName) (files : List (FileName × String)) : List ExpansionItem :=
  files.map fun f => ⟨"./inputs/" ++ source.1 ++ "/" ++ f.1.1, f.2⟩

theorem zeroPadded_plain (width n : ℕ) : PlainName (zeroPadded width n ++ ".json") := by
  refine plain_of_mem (c := 'j') ?_ (by decide) ?_
  · simp
  · have hidx := slash_not_mem_itoa (n : ℤ)
    simp [zeroPadded, hidx]

theorem join_materialised (width idx : ℕ) (p : Path) :
    p.join ("outputs/manifest/items/" ++ zeroPadded width idx ++ ".json") =
      p ++ [outputsName, ⟨"manifest", by decide⟩, ⟨"items", by decide⟩, ⟨_, zeroPadded_plain width idx⟩] := by
  have hchars : "outputs/manifest/items/" ++ zeroPadded width idx ++ ".json" =
      "outputs" ++ "/" ++ ("manifest" ++ "/" ++ ("items" ++ "/" ++ (zeroPadded width idx ++ ".json"))) := by
    rw [← String.toList_inj]
    simp
  have hmanifest : PlainName "manifest" := by decide
  have hitems : PlainName "items" := by decide
  rw [hchars, Path.join_append, Path.join_append, Path.join_append, join_outputs,
    Path.join_plain hmanifest, Path.join_plain hitems, Path.join_plain (zeroPadded_plain width idx)]
  simp

theorem join_listed (source f : FileName) (p : Path) :
    p.join ("./inputs/" ++ source.1 ++ "/" ++ f.1) = p ++ [inputsName, source, f] := by
  have hchars : "./inputs/" ++ source.1 ++ "/" ++ f.1 =
      "." ++ "/" ++ ("inputs" ++ "/" ++ (source.1 ++ "/" ++ f.1)) := by
    rw [← String.toList_inj]
    simp
  rw [hchars, Path.join_append, Path.join_append, Path.join_append, Path.join_dot, join_inputs,
    Path.join_plain source.2, Path.join_plain f.2]
  simp

namespace InputContext
variable [UUIDPackage] {c : InputContext} {ri : ResolvedInput}

/-- An item that does not lie directly in an output directory is not the manifest. -/
theorem itemTarget_ne (hids : PlainIDs) (hri : PlainName ri.sourceOutputName) (s key : String)
    (habs : s.toList.head? ≠ some '/') (rel : Path) (hpath : ∀ p : Path, p.join s = p ++ rel)
    (hrel : ∀ m, rel ≠ [outputsName, m, expansionName]) :
    c.itemTarget ri.sourceBlockID ⟨s, key⟩ ≠ ((c.sourceOut ri).join "expansion.yaml").text := by
  have hout := outDir_eq (c := c) (plain_id hids ri.sourceBlockID) hri
  rw [itemTarget, if_neg habs, hpath, Path.join_plain (plain_id hids ri.sourceBlockID), sourceOut,
    join_expansion, hout, List.append_assoc, List.append_assoc]
  intro htext
  have hp := List.append_cancel_left (Path.text_inj (by simp) (by simp) htext)
  exact hrel _ (List.cons.inj hp).2

theorem materialised_ne (hids : PlainIDs) (hri : PlainName ri.sourceOutputName) (keys : List String) :
    ((c.sourceOut ri).join "expansion.yaml").text ∉
      c.itemTargets ri.sourceBlockID (materialiseScalarItems keys) := by
  intro hmem
  obtain ⟨item, hitem, htarget⟩ := List.mem_map.mp hmem
  obtain ⟨⟨key, idx⟩, -, rfl⟩ := List.mem_map.mp hitem
  generalize max (Nat.log 10 (max keys.length 1) + 1) 2 = width at htarget
  refine itemTarget_ne hids hri _ key ?_ _ (join_materialised width idx) (fun m h => ?_) htarget
  · simp
  · have hlen := congrArg List.length h
    simp at hlen

theorem listed_ne (hids : PlainIDs) (hri : PlainName ri.sourceOutputName) (source : FileName)
    (files : List (FileName × String)) : ((c.sourceOut ri).join "expansion.yaml").text ∉
      c.itemTargets ri.sourceBlockID (mapFilesItems source files) := by
  intro hmem
  obtain ⟨item, hitem, htarget⟩ := List.mem_map.mp hmem
  obtain ⟨f, -, rfl⟩ := List.mem_map.mp hitem
  refine itemTarget_ne hids hri _ f.2 ?_ _ (join_listed source f.1) (fun m h => ?_) htarget
  · simp
  · have hname := congrArg Subtype.val (List.cons.inj h).1
    exact absurd hname (by decide)

end InputContext
end Spade

namespace Spade.InputContext
open Uuid

/-- The reduce block receives the items if and only if they are what lies directly in the output
directory of the map block, and so never those that the base library writes. -/
theorem map_reduce_iff (yamlExpansion : String → Option ExpansionManifest) (c : InputContext)
    (resolved : GoMap String ResolvedInput) (base : FileSystem) (σ : MapOrder)
    (hreduce : c.manifest.kind = .reduce) (hidx : c.invocation.mapIndex = none)
    (hplain : ∀ e ∈ resolved.items, PlainName e.1 ∧ PlainName e.2.sourceOutputName)
    (hfresh : c.Made base) (hholds : c.HoldsInvocations base) (e : String × ResolvedInput)
    (he : e ∈ resolved.items) (hno : ∀ i, ¬c.HasSibling base e.2 i) (exp : ExpansionManifest)
    (hexp : loadExpansionManifest yamlExpansion ((c.sourceOut e.2).join "expansion.yaml") base = some exp)
    (d : Disk) (h : c.setupInputSymlinks yamlExpansion σ c.workDir resolved ⟨base, none⟩ = .ok d) :
    (Gathers d.fs (c.linkDir e) (c.itemTargets e.2.sourceBlockID exp.items) ↔
      ∃ entries, base.readDir (c.sourceOut e.2) = some entries ∧
        (entries.map fun n => ((c.sourceOut e.2).join n.1).text).Perm
          (c.itemTargets e.2.sourceBlockID exp.items)) ∧
    ((∃ keys, exp.items = materialiseScalarItems keys) ∨
      (∃ source files, exp.items = mapFilesItems source files) →
        ¬Gathers d.fs (c.linkDir e) (c.itemTargets e.2.sourceBlockID exp.items)) := by
  refine ⟨receives_items_iff plainIDs hfresh hholds hreduce hidx hplain h he hno _, fun hitems => ?_⟩
  refine not_receives plainIDs hfresh hholds hreduce hidx hplain h he hno hexp ?_
  rcases hitems with ⟨keys, hkeys⟩ | ⟨source, files, hfiles⟩
  · rw [hkeys]
    exact materialised_ne plainIDs (hplain e he).2 keys
  · rw [hfiles]
    exact listed_ne plainIDs (hplain e he).2 source files

end Spade.InputContext

namespace Spade.Samples
open Uuid InputContext

/-- A reduce block that reads the map block itself. -/
def directContext : InputContext := { mergeContext with
  depManifests := (∅ : GoMap UUID BlockManifest).insert (blockID 2) { id := "split", kind := .map } }

def directInput : ResolvedInput := ⟨"parts", blockID 2, "manifest", { type := "expansion" }⟩

def directInputs : GoMap String ResolvedInput := (∅ : GoMap String ResolvedInput).insert "parts" directInput

def manifestText : String := "items:\n- path: outputs/manifest/items/00.json\n  key: NY\n"

def manifestYaml (content : String) : Option ExpansionManifest :=
  if content = manifestText then some ⟨materialiseScalarItems ["NY"]⟩ else none

/-- The map block has materialised one item and written the manifest. -/
def directStart : FileSystem :=
  let out := directContext.sourceOut directInput
  ((((FileSystem.mkdirAll (out.join "items") (mergeStart 0)).getD ∅).insert
    (out.join "items/00.json") (.file "\x7b\"value\":\"NY\"\x7d")).insert
    (out.join "expansion.yaml") (.file manifestText))

/-- A directory that is made, by the paths that there are. -/
theorem made_of_keys {c : InputContext} {fs : FileSystem}
    (hdirs : ∀ q ∈ c.inputsDir.inits, q ≠ [] → fs.lookup q = some .dir)
    (hempty : ∀ p ∈ fs.keys, c.inputsDir <+: p → p = c.inputsDir) : c.Made fs where
  dirs q hq hp := hdirs q ((List.mem_inits _ _).mpr hp) hq
  empty q hq := by
    rw [AList.lookup_eq_none]
    exact fun hmem => hq.2 (hempty q (AList.mem_keys.mp hmem) hq.1)

theorem direct_made : directContext.Made directStart := made_of_keys (by decide) (by decide)

theorem direct_holds : directContext.HoldsInvocations directStart := by
  have hnames : ∀ p ∈ directStart.keys, p.dropLast = directContext.pipelineDir →
      p.getLast?.map Subtype.val = some (Uuid.string (blockID 2)) ∨
        p.getLast?.map Subtype.val = some (Uuid.string (blockID 4)) := by decide
  intro n hn
  have hname := hnames _ (AList.mem_keys.mp hn) List.dropLast_concat
  rw [List.getLast?_concat, Option.map_some, Option.some.injEq, Option.some.injEq] at hname
  have hid : ∀ k, ({ BlockInvocation.zero with id := blockID k } : BlockInvocation).Indexed := by
    intro k i hi
    cases hi
  rcases hname with hname | hname
  · exact ⟨_, hid 2, hname⟩
  · exact ⟨_, hid 4, hname⟩

theorem direct_alone (i : ℕ) : ¬directContext.HasSibling directStart directInput i := by
  have hnil : directContext.siblings directInput directStart = [] := by decide
  exact fun h => (siblings_ne_nil plainIDs direct_made direct_holds).mpr ⟨i, h⟩ hnil

theorem direct_manifest : loadExpansionManifest manifestYaml
    ((directContext.sourceOut directInput).join "expansion.yaml") directStart =
      some ⟨materialiseScalarItems ["NY"]⟩ := by decide

theorem direct_linked : ∃ d, directContext.setupInputSymlinks manifestYaml .stored
    directContext.workDir directInputs ⟨directStart, none⟩ = .ok d := by
  have hok : (directContext.setupInputSymlinks manifestYaml .stored directContext.workDir
      directInputs ⟨directStart, none⟩).isOk = true := by decide
  cases hd : directContext.setupInputSymlinks manifestYaml .stored directContext.workDir directInputs
    ⟨directStart, none⟩ with
  | ok d => exact ⟨d, rfl⟩
  | error stop =>
    rw [hd] at hok
    cases hok

theorem direct_plain : ∀ e ∈ directInputs.items, PlainName e.1 ∧ PlainName e.2.sourceOutputName := by
  decide

theorem direct_mem : ("parts", directInput) ∈ directInputs.items := List.mem_singleton_self _

end Spade.Samples

namespace Spade.InputContext
open Samples Uuid

theorem map_reduce_single : ∃ d, directContext.setupInputSymlinks manifestYaml .stored
      directContext.workDir directInputs ⟨directStart, none⟩ = .ok d ∧
    ((Gathers d.fs (directContext.linkDir ("parts", directInput))
        (directContext.itemTargets (blockID 2) (materialiseScalarItems ["NY"])) ↔
      ∃ entries, directStart.readDir (directContext.sourceOut directInput) = some entries ∧
        (entries.map fun n => ((directContext.sourceOut directInput).join n.1).text).Perm
          (directContext.itemTargets (blockID 2) (materialiseScalarItems ["NY"])))) := by
  obtain ⟨d, hd⟩ := direct_linked
  exact ⟨d, hd, (map_reduce_iff _ _ _ _ _ rfl rfl direct_plain direct_made direct_holds _ direct_mem
    direct_alone _ direct_manifest d hd).1⟩

/-- One item has been materialised, and what is linked is the manifest and the directory of the items. -/
theorem map_reduce_fails : ∃ d, directContext.setupInputSymlinks manifestYaml .stored
      directContext.workDir directInputs ⟨directStart, none⟩ = .ok d ∧
    loadExpansionManifest manifestYaml ((directContext.sourceOut directInput).join "expansion.yaml")
      directStart = some ⟨materialiseScalarItems ["NY"]⟩ ∧
    ¬Gathers d.fs (directContext.linkDir ("parts", directInput))
      (directContext.itemTargets (blockID 2) (materialiseScalarItems ["NY"])) := by
  obtain ⟨d, hd⟩ := direct_linked
  have hne := materialised_ne (c := directContext) plainIDs (direct_plain _ direct_mem).2 ["NY"]
  exact ⟨d, hd, direct_manifest, not_receives plainIDs direct_made direct_holds rfl rfl direct_plain hd
    direct_mem direct_alone direct_manifest hne⟩

end Spade.InputContext
