import Spade.Runner.Links

set_option autoImplicit false

/-!
# The links that an attempt makes

What an attempt reads lies outside of the directory for its inputs, so what it has made
itself does not change it.
-/
namespace Spade
open UUIDPackage Disk

theorem inputs_plain : PlainName "inputs" := by decide

def inputsName : FileName := ⟨"inputs", inputs_plain⟩

def outputsName : FileName := ⟨"outputs", by decide⟩

def expansionName : FileName := ⟨"expansion.yaml", by decide⟩

theorem join_inputs (p : Path) : p.join "inputs" = p ++ [inputsName] :=
  Path.join_plain inputsName.2 p

theorem join_outputs (p : Path) : p.join "outputs" = p ++ [outputsName] :=
  Path.join_plain outputsName.2 p

theorem join_expansion (p : Path) : p.join "expansion.yaml" = p ++ [expansionName] :=
  Path.join_plain expansionName.2 p

/-- The links to what stands in a directory. -/
def entryLinks (outDir : Path) (tag : String) (entries : List FileName) : List (String × String) :=
  entries.map fun e => (tag ++ e.1, (outDir.join e.1).text)

theorem linkEntries_eq [UUIDPackage] (linkDir outDir : Path) (tag : String)
    (entries : List FileName) (d : Disk) : InputContext.linkEntries linkDir outDir tag entries d =
      linkAll linkDir (entryLinks outDir tag entries) d := by
  unfold InputContext.linkEntries linkAll entryLinks
  rw [List.foldlM_map]

theorem entryLinks_plain {outDir : Path} {tag : String} {entries : List FileName}
    (htag : tag = "" ∨ '_' ∈ tag.toList ∧ '/' ∉ tag.toList) :
    ∀ l ∈ entryLinks outDir tag entries, PlainName l.1 := by
  intro l hl
  obtain ⟨e, -, rfl⟩ := List.mem_map.mp hl
  rcases htag with rfl | ⟨hmem, hslash⟩
  · rw [String.empty_append]
    exact e.2
  · refine plain_of_mem (c := '_') ?_ (by decide) ?_
    · rw [String.toList_append]
      exact List.mem_append_left _ hmem
    · rw [String.toList_append, List.mem_append]
      exact fun h => h.elim hslash e.2.2.2.2

theorem idxTag_slash (n : FileName) : '/' ∉ (idxTag n.1).toList := by
  unfold idxTag splitLastDot
  cases n.1.toList.reverse.dropWhile (· ≠ '.') with
  | nil => exact n.2.2.2.2
  | cons c cs =>
    dsimp only
    rw [String.toList_ofList, List.mem_reverse]
    exact fun h => n.2.2.2.2 (List.mem_reverse.mp ((List.takeWhile_subset _) h))

theorem siblingTag (n : FileName) :
    '_' ∈ (idxTag n.1 ++ "_").toList ∧ '/' ∉ (idxTag n.1 ++ "_").toList := by
  rw [String.toList_append]
  refine ⟨List.mem_append_right _ (by decide), fun h => ?_⟩
  exact (List.mem_append.mp h).elim (idxTag_slash n) (by decide)

variable [UUIDPackage] (yamlExpansion : String → Option ExpansionManifest)

namespace InputContext
variable (c : InputContext)

def inputsDir : Path := c.workDir.join "inputs"

def linkDir (e : String × ResolvedInput) : Path := c.inputsDir.join e.1

def outDir (dir : String) (ri : ResolvedInput) : Path :=
  ((c.pipelineDir.join dir).join "outputs").join ri.sourceOutputName

/-! The links that an input asks for, with what is read for them. -/

def itemLinks (fs : FileSystem) (ri : ResolvedInput) (idx : Int) :
    Option (List (String × String)) :=
  match loadExpansionManifest yamlExpansion
      ((c.outDir (string ri.sourceBlockID) ri).join "expansion.yaml") fs with
  | none => none
  | some exp =>
    if idx < 0 then none
    else (exp.items[idx.toNat]?).map fun item =>
      [(Path.base (c.itemTarget ri.sourceBlockID item), c.itemTarget ri.sourceBlockID item)]

def siblingLinks (fs : FileSystem) (ri : ResolvedInput) (siblings : List FileName) :
    List (String × String) :=
  siblings.flatMap fun sibling =>
    match fs.readDir (c.outDir sibling.1 ri) with
    | none => []
    | some entries => entryLinks (c.outDir sibling.1 ri) (idxTag sibling.1 ++ "_") entries

def sourceLinks (fs : FileSystem) (ri : ResolvedInput) : Option (List (String × String)) :=
  (fs.readDir (c.sourceDir ri fs)).map (entryLinks (c.sourceDir ri fs) "")

def links (fs : FileSystem) (e : String × ResolvedInput) : Option (List (String × String)) :=
  match c.invocation.mapIndex with
  | some idx =>
    if (c.depManifests.lookup e.2.sourceBlockID).map BlockManifest.kind = some .map then
      c.itemLinks yamlExpansion fs e.2 idx
    else if c.manifest.kind = .reduce ∧ c.siblings e.2 fs ≠ [] then
      some (c.siblingLinks fs e.2 (c.siblings e.2 fs))
    else c.sourceLinks fs e.2
  | none =>
    if c.manifest.kind = .reduce ∧ c.siblings e.2 fs ≠ [] then
      some (c.siblingLinks fs e.2 (c.siblings e.2 fs))
    else c.sourceLinks fs e.2

/-! What lies below the directory for the inputs is not read. -/

def Below (p : Path) : Prop := c.inputsDir <+: p ∧ p ≠ c.inputsDir

/-- The file systems agree but for what is below the directory for the inputs. -/
def Outside (fs fs' : FileSystem) : Prop := ∀ p, ¬c.Below p → fs'.lookup p = fs.lookup p

/-- The text form of an id has dashes and no slashes. -/
def PlainIDs : Prop := ∀ u : UUID, '-' ∈ (string u).toList ∧ '/' ∉ (string u).toList

variable {c}

theorem plain_id (hids : PlainIDs) (u : UUID) : PlainName (string u) :=
  plain_of_mem (hids u).1 (by decide) (hids u).2

theorem plain_indexed (hids : PlainIDs) (u : UUID) (i : Int) :
    PlainName (string u ++ "." ++ itoa i) := by
  refine plain_of_mem (c := '-') ?_ (by decide) ?_
  · simp [String.toList_append, (hids u).1]
  · simp [String.toList_append, (hids u).2, slash_not_mem_itoa]

theorem plain_invocation (hids : PlainIDs) (inv : BlockInvocation) :
    PlainName inv.invocationID := by
  unfold BlockInvocation.invocationID
  cases inv.mapIndex with
  | none => exact plain_id hids _
  | some i => exact plain_indexed hids _ i

theorem workDir_eq (hids : PlainIDs) :
    ∃ n : FileName, c.workDir = c.pipelineDir ++ [n] ∧ c.inputsDir = c.pipelineDir ++ [n, inputsName] := by
  refine ⟨⟨_, plain_invocation hids c.invocation⟩, Path.join_plain _ _, ?_⟩
  rw [inputsDir, workDir, Path.join_plain (plain_invocation hids c.invocation),
    join_inputs, List.append_assoc]
  rfl

theorem linkDir_eq {e : String × ResolvedInput} (he : PlainName e.1) :
    c.linkDir e = c.inputsDir ++ [⟨e.1, he⟩] := Path.join_plain he _

theorem below_append {l : Path} (hl : l ≠ []) : c.Below (c.inputsDir ++ l) :=
  ⟨List.prefix_append _ _, fun h => hl (List.append_right_eq_self.mp h)⟩

theorem not_below_above {p : Path} (h : p <+: c.inputsDir) : ¬c.Below p :=
  fun hb => hb.2 (h.eq_of_length_le hb.1.length_le)

theorem not_below_child (hids : PlainIDs) (s : FileName) : ¬c.Below (c.pipelineDir ++ [s]) := by
  rintro ⟨hp, -⟩
  obtain ⟨n, -, hn⟩ := workDir_eq (c := c) hids
  have hlen := hp.length_le
  rw [hn] at hlen
  simp at hlen

theorem not_below_out (hids : PlainIDs) (s : FileName) (rest : Path) :
    ¬c.Below (c.pipelineDir ++ s :: outputsName :: rest) := by
  rintro ⟨hp, -⟩
  obtain ⟨n, -, hn⟩ := workDir_eq (c := c) hids
  rw [hn, List.prefix_append_right_inj, List.cons_prefix_cons, List.cons_prefix_cons] at hp
  exact absurd (congrArg Subtype.val hp.2.1) (by decide)

omit [UUIDPackage] in
theorem outDir_eq {dir : String} (hdir : PlainName dir) {ri : ResolvedInput}
    (hri : PlainName ri.sourceOutputName) : c.outDir dir ri =
      c.pipelineDir ++ [⟨dir, hdir⟩, outputsName, ⟨ri.sourceOutputName, hri⟩] := by
  rw [outDir, Path.join_plain hdir, join_outputs, Path.join_plain hri]
  simp

namespace Outside
variable {fs fs' : FileSystem}

theorem isDir (h : c.Outside fs fs') {p : Path} (hp : ¬c.Below p) : fs'.isDir p = fs.isDir p := by
  unfold FileSystem.isDir
  rw [h p hp]

theorem readDir (h : c.Outside fs fs') {p : Path} (hp : ¬c.Below p)
    (hn : ∀ n : FileName, ¬c.Below (p ++ [n])) : fs'.readDir p = fs.readDir p := by
  refine FileSystem.readDir_congr (h.isDir hp) fun n => ?_
  rw [GoMap.mem_iff_lookup, GoMap.mem_iff_lookup, h _ (hn n)]

theorem readOut (h : c.Outside fs fs') (hids : PlainIDs) {dir : String} (hdir : PlainName dir)
    {ri : ResolvedInput} (hri : PlainName ri.sourceOutputName) :
    fs'.readDir (c.outDir dir ri) = fs.readDir (c.outDir dir ri) := by
  rw [outDir_eq hdir hri]
  refine h.readDir (not_below_out hids _ _) fun n => ?_
  rw [List.append_assoc]
  exact not_below_out hids _ _

theorem siblings (h : c.Outside fs fs') (hids : PlainIDs) (ri : ResolvedInput) :
    c.siblings ri fs' = c.siblings ri fs := by
  have hpipe : ¬c.Below c.pipelineDir := by
    obtain ⟨n, -, hn⟩ := workDir_eq (c := c) hids
    exact not_below_above (hn ▸ List.prefix_append _ _)
  unfold InputContext.siblings globPrefix
  rw [h.readDir hpipe (not_below_child hids)]

theorem sourceDir (h : c.Outside fs fs') (hids : PlainIDs) (ri : ResolvedInput) :
    c.sourceDir ri fs' = c.sourceDir ri fs := by
  unfold InputContext.sourceDir
  cases c.invocation.mapIndex with
  | none => rfl
  | some i =>
    dsimp only
    rw [Path.join_plain (plain_indexed hids ri.sourceBlockID i), h.isDir (not_below_child hids _)]

end Outside

theorem sourceDir_cases (hids : PlainIDs) (ri : ResolvedInput) (fs : FileSystem) :
    ∃ dir, PlainName dir ∧ c.sourceDir ri fs = c.outDir dir ri := by
  unfold sourceDir
  cases c.invocation.mapIndex with
  | none => exact ⟨_, plain_id hids _, rfl⟩
  | some i =>
    dsimp only
    split_ifs
    · exact ⟨_, plain_indexed hids _ i, rfl⟩
    · exact ⟨_, plain_id hids _, rfl⟩

theorem Outside.links {fs fs' : FileSystem} (h : c.Outside fs fs') (hids : PlainIDs)
    {e : String × ResolvedInput} (he : PlainName e.2.sourceOutputName) :
    c.links yamlExpansion fs' e = c.links yamlExpansion fs e := by
  have hsource : c.sourceLinks fs' e.2 = c.sourceLinks fs e.2 := by
    obtain ⟨dir, hdir, hd⟩ := sourceDir_cases (c := c) hids e.2 fs
    unfold sourceLinks
    rw [h.sourceDir hids, hd, h.readOut hids hdir he]
  have hsiblings : ∀ l, c.siblingLinks fs' e.2 l = c.siblingLinks fs e.2 l := by
    intro l
    unfold siblingLinks
    congr 1
    funext sibling
    rw [h.readOut hids sibling.2 he]
  have hitem : ∀ idx, c.itemLinks yamlExpansion fs' e.2 idx = c.itemLinks yamlExpansion fs e.2 idx := by
    intro idx
    have hread : fs'.readFile ((c.outDir (string e.2.sourceBlockID) e.2).join "expansion.yaml") =
        fs.readFile ((c.outDir (string e.2.sourceBlockID) e.2).join "expansion.yaml") := by
      unfold FileSystem.readFile
      rw [outDir_eq (plain_id hids _) he, join_expansion, List.append_assoc]
      dsimp only [List.cons_append]
      rw [h _ (not_below_out hids _ _)]
    unfold itemLinks loadExpansionManifest
    rw [hread]
  unfold InputContext.links
  rw [h.siblings hids, hsource, hsiblings]
  simp only [hitem]

end InputContext
end Spade
