import Spade.Core.Locked

set_option autoImplicit false

/-!
# What the lockfile holds after `ResolveShortCodes`

The walk over the file spells one substitution, that of the bindings it ends with.
-/
namespace Spade
open UUIDPackage Interning YamlNode

namespace YamlNode

/-- No key twice in the mapping itself. -/
def KeysNodup : YamlNode → Prop
  | mapping _ _ content => (content.map fun e => (e.1.kind, e.1.value)).Nodup
  | _ => True

theorem NoDuplicates.keys {n : YamlNode} (h : n.NoDuplicates) : n.KeysNodup := by
  cases n with
  | sequence style tag content => trivial
  | mapping style tag content => exact h.1
  | scalar s => trivial

theorem KeysNodup.update {n : YamlNode} (h : n.KeysNodup) (key : String) (g : YamlNode → YamlNode) :
    (n.update key g).KeysNodup := by
  cases n with
  | sequence style tag content => trivial
  | scalar s => trivial
  | mapping style tag content =>
    have hsame : (content.map fun e => if e.1.value = key then (e.1, g e.2) else e).map
        (fun e => (e.1.kind, e.1.value)) = content.map fun e => (e.1.kind, e.1.value) := by
      rw [List.map_map]
      refine List.map_congr_left fun e _ => ?_
      rw [Function.comp_apply]
      split_ifs <;> rfl
    change ((content.map fun e => if e.1.value = key then (e.1, g e.2) else e).map _).Nodup
    rw [hsame]
    exact h

theorem gather_update {key key' : String} (hne : key ≠ key') (g : YamlNode → YamlNode)
    (c : YamlNode → List String) (n : YamlNode) : (n.update key g).gather key' c = n.gather key' c := by
  cases n with
  | sequence style tag content => rfl
  | scalar s => rfl
  | mapping style tag content =>
    unfold update gather
    dsimp only
    induction content with
    | nil => rfl
    | cons e l ih =>
      rw [List.map_cons]
      by_cases hk : e.1.value = key
      · rw [if_pos hk, List.filter_cons_of_neg (by simp [hk, hne]),
          List.filter_cons_of_neg (by simp [hk, hne]), ih]
      · rw [if_neg hk]
        by_cases hk' : e.1.value = key'
        · rw [List.filter_cons_of_pos (by simp [hk']), List.filter_cons_of_pos (by simp [hk']),
            List.flatMap_cons, ih, List.flatMap_cons]
        · rw [List.filter_cons_of_neg (by simp [hk']), List.filter_cons_of_neg (by simp [hk']), ih]

/-- A node with a text is a scalar. -/
theorem kind_of_value {n : YamlNode} {key : String} (hkey : key ≠ "") (h : n.value = key) :
    n.kind = 8 := by
  cases n with
  | sequence style tag content => exact absurd h.symm hkey
  | mapping style tag content => exact absurd h.symm hkey
  | scalar s => rfl

theorem map_without {key : String} {content : List (YamlNode × YamlNode)}
    (h : ∀ e ∈ content, e.1.value ≠ key) (g : YamlNode → YamlNode) :
    (content.map fun e => if e.1.value = key then (e.1, g e.2) else e) = content := by
  conv_rhs => rw [← List.map_id' content]
  exact List.map_congr_left fun e he => if_neg (h e he)

/-- The value at a key is set apart in the mapping. -/
theorem split_entry {key : String} (hkey : key ≠ "") {content : List (YamlNode × YamlNode)} {v : YamlNode}
    (hn : (content.map fun e => (e.1.kind, e.1.value)).Nodup)
    (h : (content.find? fun e => e.1.value = key).map Prod.snd = some v) :
    (∀ g : YamlNode → YamlNode, setMappingValue key (g v) content =
      content.map fun e => if e.1.value = key then (e.1, g e.2) else e) ∧
    ∀ c : YamlNode → List String, (content.filter fun e => e.1.value = key).flatMap (fun e => c e.2) =
      c v := by
  induction content with
  | nil => cases h
  | cons e l ih =>
    rw [List.map_cons, List.nodup_cons] at hn
    by_cases hk : e.1.value = key
    · rw [List.find?_cons_of_pos (by simp [hk])] at h
      obtain rfl : e.2 = v := Option.some.inj h
      have hrest : ∀ e' ∈ l, e'.1.value ≠ key := by
        intro e' he' hk'
        refine hn.1 (List.mem_map.mpr ⟨e', he', ?_⟩)
        rw [kind_of_value hkey hk, kind_of_value hkey hk', hk, hk']
      constructor
      · intro g
        rw [setMappingValue, if_pos hk, List.map_cons, if_pos hk, map_without hrest]
      · intro c
        have hnone : l.filter (fun e => e.1.value = key) = [] :=
          List.filter_eq_nil_iff.mpr fun e' he' => by simpa using hrest e' he'
        rw [List.filter_cons_of_pos (by simp [hk]), hnone, List.flatMap_cons, List.flatMap_nil,
          List.append_nil]
    · rw [List.find?_cons_of_neg (by simp [hk])] at h
      obtain ⟨hset, hgather⟩ := ih hn.2 h
      constructor
      · intro g
        rw [setMappingValue, if_neg hk, hset, List.map_cons, if_neg hk]
      · intro c
        rw [List.filter_cons_of_neg (by simp [hk]), hgather]

theorem NoDuplicates.mappingValue {m v : YamlNode} {key : String} (h : m.NoDuplicates)
    (hv : mappingValue m key = some v) : v.NoDuplicates := by
  cases m with
  | sequence style tag content => cases hv
  | scalar s => cases hv
  | mapping style tag content =>
    obtain ⟨e, he, rfl⟩ := Option.map_eq_some_iff.mp hv
    exact h.2.value e (List.mem_of_find?_eq_some he)

theorem mappingValue_update {key key' : String} (hne : key ≠ key') (g : YamlNode → YamlNode) (n : YamlNode) :
    mappingValue (n.update key g) key' = mappingValue n key' := by
  cases n with
  | sequence style tag content => rfl
  | scalar s => rfl
  | mapping style tag content =>
    unfold YamlNode.update mappingValue
    dsimp only
    induction content with
    | nil => rfl
    | cons e l ih =>
      rw [List.map_cons]
      by_cases hk : e.1.value = key
      · rw [if_pos hk, List.find?_cons_of_neg (by simp [hk, hne]),
          List.find?_cons_of_neg (by simp [hk, hne]), ih]
      · rw [if_neg hk]
        by_cases hk' : e.1.value = key'
        · rw [List.find?_cons_of_pos (by simp [hk']), List.find?_cons_of_pos (by simp [hk'])]
        · rw [List.find?_cons_of_neg (by simp [hk']), List.find?_cons_of_neg (by simp [hk']), ih]

end YamlNode

section
variable [UUIDPackage] {newV7 : ℕ → Except String UUID}

omit [UUIDPackage] in
theorem spells_atKey {key : String} (hkey : key ≠ "") {w : YamlNode → CodeWalk YamlNode}
    {keys : YamlNode → List String} {t : YamlNode → (String → UUID) → YamlNode} {m : YamlNode} (hm : m.KeysNodup)
    (h : ∀ v, mappingValue m key = some v → Spells (generate newV7) (w v) (keys v) (t v)) :
    Spells (generate newV7) (atKey key w m) (m.gather key keys) fun f =>
      m.update key fun v => t v f := by
  cases m with
  | sequence style tag content => exact spells_pure _
  | scalar s => exact spells_pure _
  | mapping style tag content =>
    unfold atKey
    cases hv : mappingValue (.mapping style tag content) key with
    | none =>
      have hno : ∀ e ∈ content, e.1.value ≠ key := by
        intro e he
        have hfind := List.find?_eq_none.mp (Option.map_eq_none_iff.mp hv) e he
        simpa using hfind
      have hgather : (mapping style tag content).gather key keys = [] := by
        rw [gather, List.filter_eq_nil_iff.mpr fun e he => by simpa using hno e he]
        rfl
      refine (spells_pure (mapping style tag content)).congr rfl hgather (funext fun f => ?_)
      exact congrArg _ (map_without hno fun v => t v f)
    | some v =>
      obtain ⟨hset, hgather⟩ := split_entry hkey hm hv
      refine ((h v hv).map fun v => YamlNode.mapping style tag (setMappingValue key v content)).congr rfl
        (hgather keys) (funext fun f => ?_)
      exact (congrArg _ (hset fun v => t v f)).symm

theorem spells_resolveScalar (n : YamlNode) : Spells (generate newV7) (resolveScalar newV7 n)
    (scalarCodes n) fun f => rewriteScalar f n := by
  cases n with
  | sequence style tag content => exact spells_pure _
  | mapping style tag content => exact spells_pure _
  | scalar s =>
    unfold resolveScalar scalarCodes rewriteScalar Scalar.codes Scalar.rewrite
    dsimp only
    split_ifs with hcode
    · exact (spells_intern s.value).map fun id => YamlNode.scalar ⟨0, "", string id⟩
    · exact spells_pure _

theorem spells_resolveItem {n : YamlNode} (h : n.NoDuplicates) : Spells (generate newV7)
    (resolveItem newV7 n) (itemCodes n) fun f => rewriteItem f n := by
  cases n with
  | sequence style tag content => exact spells_pure _
  | scalar s =>
    exact (spells_resolveScalar (.scalar s)).congr rfl (List.append_nil s.codes) rfl
  | mapping style tag content =>
    exact spells_atKey (by decide) h.keys fun v _ => spells_resolveScalar v

theorem spells_resolveInputNodes {n : YamlNode} (h : n.NoDuplicates) : Spells (generate newV7)
    (resolveInputNodes newV7 n) (inputCodes n) fun f => rewriteInputs f n := by
  cases n with
  | mapping style tag content => exact spells_pure _
  | scalar s => exact spells_pure _
  | sequence style tag content =>
    have hitems := (noDuplicatesItems_iff content).mp h
    exact (Spells.mapM fun n hn => spells_resolveItem (hitems n hn)).map fun content =>
      YamlNode.sequence style tag content

theorem spells_resolveBlockNode {b : YamlNode} (h : b.NoDuplicates) : Spells (generate newV7)
    (resolveBlockNode newV7 b) (blockCodes b) fun f => rewriteBlock f b := by
  have hne : "id" ≠ "inputs" := by decide
  refine (spells_atKey (by decide) h.keys fun v _ => spells_resolveScalar v).bind
    (fun f g => (b.update "id" (rewriteScalar f)).update "inputs" (rewriteInputs g)) fun f => ?_
  have hkeys : b.gather "inputs" inputCodes =
      (b.update "id" (rewriteScalar f)).gather "inputs" inputCodes :=
    (gather_update hne (rewriteScalar f) inputCodes b).symm
  refine (spells_atKey (by decide) (h.keys.update "id" (rewriteScalar f)) fun v hv => ?_).congr rfl
    hkeys rfl
  rw [mappingValue_update hne] at hv
  exact spells_resolveInputNodes (h.mappingValue hv)

theorem spells_resolveBlockNodes {style : ℕ} {tag : String} {content : List YamlNode}
    (h : (sequence style tag content).NoDuplicates) : Spells (generate newV7)
    (resolveBlockNodes newV7 (.sequence style tag content))
    (blocksCodes (.sequence style tag content))
    fun f => rewriteBlocks f (.sequence style tag content) := by
  have hitems := (noDuplicatesItems_iff content).mp h
  exact (Spells.mapM fun n hn => spells_resolveBlockNode (hitems n hn)).map fun content =>
    YamlNode.sequence style tag content

omit [UUIDPackage] in
/-- The value that `atKey` walks through was walked through. -/
theorem atKey_ok {key : String} {w : YamlNode → CodeWalk YamlNode} {m m' v : YamlNode}
    {s s' : Interner String UUID} (h : atKey key w m s = .ok (m', s'))
    (hv : mappingValue m key = some v) : ∃ v', w v s = .ok (v', s') := by
  cases m with
  | sequence style tag content => cases hv
  | scalar sc => cases hv
  | mapping style tag content =>
    unfold atKey at h
    rw [hv] at h
    change Except.bind (w v s) _ = _ at h
    cases hw : w v s with
    | error e =>
      rw [hw] at h
      cases h
    | ok r =>
      rw [hw] at h
      cases h
      exact ⟨r.1, rfl⟩

theorem resolveShortCodes_stable {root out : YamlNode} {lock lock' : Lockfile} {changed : Bool}
    (hdup : root.NoDuplicates)
    (h : resolveShortCodes newV7 (some root) lock = .ok (out, lock', changed)) :
    ∃ bindings, lock' = { lock with bindings := some bindings } ∧
      out = root.rewriteAt inPipeline (fun code => (bindings.lookup code).getD UUID.nil) ∧
      (∀ code id, (lock.bindings.getD ∅).lookup code = some id →
        bindings.lookup code = some id) ∧
      (∀ code, code ∈ bindings ↔ code ∈ lock.bindings.getD ∅ ∨ code ∈ root.codesAt inPipeline) ∧
      (changed = true ↔ ∃ code ∈ root.codesAt inPipeline, code ∉ lock.bindings.getD ∅) ∧
      ∀ newV7', resolveShortCodes newV7' (some root) lock' = .ok (out, lock', false) := by
  cases root with
  | sequence style tag content => cases h
  | scalar s => cases h
  | mapping style tag content =>
    unfold resolveShortCodes at h
    dsimp only at h
    cases hid : content.find? isShortCodeId with
    | some e =>
      rw [hid] at h
      cases h
    | none =>
      rw [hid] at h
      dsimp only at h
      cases hwalk : atKey "blocks" (resolveBlockNodes newV7) (.mapping style tag content)
          { bindings := lock.bindings.getD ∅ } with
      | error e =>
        rw [hwalk] at h
        cases h
      | ok r =>
        obtain ⟨out', s⟩ := r
        rw [hwalk] at h
        cases h
        have hspells : ∀ newV7' : ℕ → Except String UUID, Spells (generate newV7')
            (atKey "blocks" (resolveBlockNodes newV7') (mapping style tag content))
            ((mapping style tag content).gather "blocks" blocksCodes)
            fun f => (mapping style tag content).rewriteAt inPipeline f := by
          intro newV7'
          refine (spells_atKey (by decide) hdup.keys fun v hv => ?_).congr rfl rfl
            (funext fun f => rewriteAt_inPipeline style tag content)
          obtain ⟨v', hv'⟩ := atKey_ok hwalk hv
          cases v with
          | mapping style tag content => cases hv'
          | scalar s => cases hv'
          | sequence style tag content => exact spells_resolveBlockNodes (hdup.mappingValue hv)
        obtain ⟨hgrow, hval⟩ := (hspells newV7).run _ _ _ hwalk
        refine ⟨s.bindings, rfl, hval _ hgrow.reads, hgrow.kept, fun code => ?_, ?_,
          fun newV7' => ?_⟩
        · rw [mem_codesAt_inPipeline]
          exact hgrow.bound code
        · simpa [mem_codesAt_inPipeline] using hgrow.changed
        · have hagain := (hspells newV7').rerun ⟨s.bindings, false, 0⟩ _ hgrow.reads
          rw [← hval _ hgrow.reads] at hagain
          unfold resolveShortCodes
          dsimp only
          rw [hid]
          dsimp only
          rw [Option.getD_some, hagain]

end

/-! A lockfile that knows one of the two codes of a file. -/

open Samples Uuid

def textNode (value : String) : YamlNode := .scalar ⟨0, "!!str", value⟩

def quotedNode (value : String) : YamlNode := .scalar ⟨2, "!!str", value⟩

def recordNode (fields : List (String × YamlNode)) : YamlNode :=
  .mapping 0 "!!map" (fields.map fun e => (textNode e.1, e.2))

def listNode (items : List YamlNode) : YamlNode := .sequence 0 "!!seq" items

def codedStep (id dep : YamlNode) : YamlNode :=
  recordNode [("name", textNode "p"), ("blocks", listNode [
    recordNode [("id", id), ("name", textNode "step"),
      ("inputs", listNode [recordNode [("block", dep), ("output", quotedNode "@out")]]),
      ("args", recordNode [("inputs", listNode [quotedNode "@tag"])])]])]

theorem resolveShortCodes_step :
    let lock : Lockfile := { bindings := some ((∅ : GoMap String UUID).insert "@a" (blockID 1)) }
    let root := codedStep (quotedNode "@b") (quotedNode "@a")
    let out := codedStep (.scalar ⟨0, "", Uuid.string (blockID 2)⟩)
      (.scalar ⟨0, "", Uuid.string (blockID 1)⟩)
    ∃ lock', resolveShortCodes (fun _ => .ok (blockID 2)) (some root) lock = .ok (out, lock', true) ∧
      ∀ newV7, resolveShortCodes newV7 (some root) lock' = .ok (out, lock', false) := by
  intro lock root out
  have hrun : resolveShortCodes (fun _ => .ok (blockID 2)) (some root) lock = .ok (out,
      { bindings := some (((∅ : GoMap String UUID).insert "@a" (blockID 1)).insert "@b"
        (blockID 2)) }, true) := rfl
  have hdup : root.NoDuplicates := by
    simp [root, codedStep, recordNode, listNode, textNode, quotedNode, NoDuplicates, NoDuplicatesItems,
      NoDuplicatesEntries, YamlNode.kind, YamlNode.value]
  obtain ⟨bindings, -, -, -, -, -, hagain⟩ := resolveShortCodes_stable hdup hrun
  exact ⟨_, hrun, hagain⟩

end Spade
