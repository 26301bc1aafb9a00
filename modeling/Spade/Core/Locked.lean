import Spade.Core.Samples
import Spade.Core.Substitution

set_option autoImplicit false

/-! # `ResolveShortCodes` is one substitution, which the lockfile keeps -/
namespace Spade
open UUIDPackage Interning YamlNode

/-! The substitution, level by level. -/

section
variable [UUIDPackage]

def rewriteScalar (f : String → UUID) : YamlNode → YamlNode
  | .scalar s => .scalar (s.rewrite f)
  | n => n

def rewriteItem (f : String → UUID) (n : YamlNode) : YamlNode :=
  (rewriteScalar f n).update "block" (rewriteScalar f)

def rewriteInputs (f : String → UUID) : YamlNode → YamlNode
  | .sequence style tag content => .sequence style tag (content.map (rewriteItem f))
  | n => n

def rewriteBlock (f : String → UUID) (b : YamlNode) : YamlNode :=
  (b.update "id" (rewriteScalar f)).update "inputs" (rewriteInputs f)

def rewriteBlocks (f : String → UUID) : YamlNode → YamlNode
  | .sequence style tag content => .sequence style tag (content.map (rewriteBlock f))
  | n => n

end

def scalarCodes : YamlNode → List String
  | .scalar s => s.codes
  | _ => []

def itemCodes (n : YamlNode) : List String := scalarCodes n ++ n.gather "block" scalarCodes

def inputCodes : YamlNode → List String
  | .sequence _ _ content => content.flatMap itemCodes
  | _ => []

def blockCodes (b : YamlNode) : List String :=
  b.gather "id" scalarCodes ++ b.gather "inputs" inputCodes

def blocksCodes : YamlNode → List String
  | .sequence _ _ content => content.flatMap blockCodes
  | _ => []

/-! It is the rewriting at the paths of the short codes. -/

section
variable [UUIDPackage] {paths : List Label → Bool} {f : String → UUID}

theorem rewriteAt_sequence (h : ∀ i p, paths (.item i :: p) = false) (style : ℕ) (tag : String)
    (content : List YamlNode) : (sequence style tag content).rewriteAt paths f =
      sequence style tag content := by
  rw [rewriteAt_items (fun _ => false) h]
  congr 1
  exact List.map_id'' (fun n => rewriteAt_none (fun _ => rfl) n) content

theorem rewriteAt_value (key : String) (paths' : List Label → Bool) (hkey : ∀ p, paths (.key :: p) = false)
    (h : ∀ k p, paths (.value k :: p) = (decide (k = key) && paths' p)) (style : ℕ) (tag : String)
    (content : List (YamlNode × YamlNode)) : (mapping style tag content).rewriteAt paths f =
      (mapping style tag content).update key fun n => n.rewriteAt paths' f := by
  rw [rewriteAt_entries hkey]
  refine congrArg _ (List.map_congr_left fun e _ => ?_)
  simp only [h]
  by_cases hk : e.1.value = key
  · simp [hk]
  · rw [if_neg hk, rewriteAt_none fun p => by simp [hk]]

theorem rewriteAt_mapping (hkey : ∀ p, paths (.key :: p) = false)
    (h : ∀ k p, paths (.value k :: p) = false) (style : ℕ) (tag : String)
    (content : List (YamlNode × YamlNode)) : (mapping style tag content).rewriteAt paths f =
      mapping style tag content := by
  rw [rewriteAt_entries hkey]
  refine congrArg _ (List.map_id'' (fun e => ?_) content)
  rw [rewriteAt_none (h e.1.value)]

theorem rewriteAt_nil (n : YamlNode) :
    n.rewriteAt (fun p => decide (p = [])) f = rewriteScalar f n := by
  cases n with
  | scalar s => rfl
  | sequence style tag content => exact rewriteAt_sequence (fun _ _ => rfl) style tag content
  | mapping style tag content => exact rewriteAt_mapping (fun _ => rfl) (fun _ _ => rfl) _ _ content

theorem rewriteAt_inItem (n : YamlNode) : n.rewriteAt inItem f = rewriteItem f n := by
  cases n with
  | scalar s => rfl
  | sequence style tag content => exact rewriteAt_sequence (fun _ _ => rfl) style tag content
  | mapping style tag content =>
    rw [rewriteAt_value "block" (fun p => decide (p = [])) (fun _ => rfl)]
    · simp only [rewriteAt_nil]
      rfl
    · intro k p
      cases p with
      | nil => simp [inItem]
      | cons l p => simp [inItem]

theorem rewriteAt_inInputs (n : YamlNode) : n.rewriteAt inInputs f = rewriteInputs f n := by
  cases n with
  | scalar s => rfl
  | sequence style tag content =>
    rw [rewriteAt_items inItem fun _ _ => rfl]
    exact congrArg _ (List.map_congr_left fun n _ => rewriteAt_inItem n)
  | mapping style tag content => exact rewriteAt_mapping (fun _ => rfl) (fun _ _ => rfl) _ _ content

theorem rewriteAt_inBlock (n : YamlNode) : n.rewriteAt inBlock f = rewriteBlock f n := by
  cases n with
  | scalar s => rfl
  | sequence style tag content => exact rewriteAt_sequence (fun _ _ => rfl) style tag content
  | mapping style tag content =>
    rw [rewriteAt_entries fun _ => rfl]
    refine congrArg _ ?_
    rw [List.map_map]
    refine List.map_congr_left fun e _ => ?_
    dsimp only [Function.comp_apply]
    by_cases hid : e.1.value = "id"
    · rw [if_pos hid, if_neg (by rw [hid]; decide), ← rewriteAt_nil]
      simp [inBlock, hid]
    · rw [if_neg hid]
      by_cases hin : e.1.value = "inputs"
      · rw [if_pos hin, ← rewriteAt_inInputs]
        simp [inBlock, hin]
      · rw [if_neg hin, rewriteAt_none fun p => by simp [inBlock, hid, hin]]

theorem rewriteAt_inBlocks (n : YamlNode) : n.rewriteAt inBlocks f = rewriteBlocks f n := by
  cases n with
  | scalar s => rfl
  | sequence style tag content =>
    rw [rewriteAt_items inBlock fun _ _ => rfl]
    exact congrArg _ (List.map_congr_left fun n _ => rewriteAt_inBlock n)
  | mapping style tag content => exact rewriteAt_mapping (fun _ => rfl) (fun _ _ => rfl) _ _ content

theorem rewriteAt_inPipeline (style : ℕ) (tag : String) (content : List (YamlNode × YamlNode)) :
    (mapping style tag content).rewriteAt inPipeline f =
      (mapping style tag content).update "blocks" (rewriteBlocks f) := by
  rw [rewriteAt_value "blocks" inBlocks (fun _ => rfl)]
  · simp only [rewriteAt_inBlocks]
  · intro k p
    simp [inPipeline]

end

/-! The codes are those at the paths. -/

section
variable {paths : List Label → Bool}

theorem codesAt_sequence (h : ∀ i p, paths (.item i :: p) = false) (style : ℕ) (tag : String)
    (content : List YamlNode) : (sequence style tag content).codesAt paths = [] := by
  rw [codesAt_items (fun _ => false) h]
  exact List.flatMap_eq_nil_iff.mpr fun n _ => codesAt_none (fun _ => rfl) n

theorem codesAt_mapping (hkey : ∀ p, paths (.key :: p) = false)
    (h : ∀ k p, paths (.value k :: p) = false) (style : ℕ) (tag : String)
    (content : List (YamlNode × YamlNode)) : (mapping style tag content).codesAt paths = [] := by
  rw [codesAt_entries hkey]
  exact List.flatMap_eq_nil_iff.mpr fun e _ => codesAt_none (h _) e.2

theorem mem_codesAt_value (key : String) (paths' : List Label → Bool) (hkey : ∀ p, paths (.key :: p) = false)
    (h : ∀ k p, paths (.value k :: p) = (decide (k = key) && paths' p)) (style : ℕ) (tag : String)
    (content : List (YamlNode × YamlNode)) (code : String) :
    code ∈ (mapping style tag content).codesAt paths ↔
      code ∈ (mapping style tag content).gather key fun n => n.codesAt paths' := by
  rw [codesAt_entries hkey, gather]
  simp only [List.mem_flatMap, List.mem_filter, decide_eq_true_eq, h]
  refine exists_congr fun e => ?_
  by_cases hk : e.1.value = key
  · simp [hk]
  · rw [codesAt_none fun p => by simp [hk]]
    simp [hk]

theorem codesAt_nil (n : YamlNode) : n.codesAt (fun p => decide (p = [])) = scalarCodes n := by
  cases n with
  | scalar s => rfl
  | sequence style tag content => exact codesAt_sequence (fun _ _ => rfl) style tag content
  | mapping style tag content => exact codesAt_mapping (fun _ => rfl) (fun _ _ => rfl) _ _ content

theorem mem_codesAt_inItem (n : YamlNode) (code : String) :
    code ∈ n.codesAt inItem ↔ code ∈ itemCodes n := by
  cases n with
  | scalar s =>
    change code ∈ s.codes ↔ code ∈ s.codes ++ []
    rw [List.append_nil]
  | sequence style tag content => rw [codesAt_sequence fun _ _ => rfl]; rfl
  | mapping style tag content =>
    rw [mem_codesAt_value "block" (fun p => decide (p = [])) (fun _ => rfl)]
    · simp only [codesAt_nil]
      rfl
    · intro k p
      cases p <;> simp [inItem]

theorem mem_codesAt_inInputs (n : YamlNode) (code : String) :
    code ∈ n.codesAt inInputs ↔ code ∈ inputCodes n := by
  cases n with
  | scalar s => rfl
  | sequence style tag content =>
    rw [codesAt_items inItem fun _ _ => rfl, inputCodes]
    simp only [List.mem_flatMap, mem_codesAt_inItem]
  | mapping style tag content => rw [codesAt_mapping (fun _ => rfl) fun _ _ => rfl]; rfl

theorem mem_codesAt_inBlock (n : YamlNode) (code : String) :
    code ∈ n.codesAt inBlock ↔ code ∈ blockCodes n := by
  cases n with
  | scalar s => rfl
  | sequence style tag content => rw [codesAt_sequence fun _ _ => rfl]; rfl
  | mapping style tag content =>
    rw [codesAt_entries fun _ => rfl, blockCodes, gather, gather, List.mem_append]
    simp only [List.mem_flatMap, List.mem_filter, decide_eq_true_eq, ← exists_or, ← and_or_left,
      and_assoc, ← codesAt_nil, ← mem_codesAt_inInputs]
    refine exists_congr fun e => and_congr_right fun _ => ?_
    by_cases hid : e.1.value = "id"
    · simp [inBlock, hid]
    · by_cases hin : e.1.value = "inputs"
      · simp [inBlock, hin]
      · rw [codesAt_none fun p => by simp [inBlock, hid, hin]]
        simp [hid, hin]

theorem mem_codesAt_inBlocks (n : YamlNode) (code : String) :
    code ∈ n.codesAt inBlocks ↔ code ∈ blocksCodes n := by
  cases n with
  | scalar s => rfl
  | sequence style tag content =>
    rw [codesAt_items inBlock fun _ _ => rfl, blocksCodes]
    simp only [List.mem_flatMap, mem_codesAt_inBlock]
  | mapping style tag content => rw [codesAt_mapping (fun _ => rfl) fun _ _ => rfl]; rfl

theorem mem_codesAt_inPipeline (style : ℕ) (tag : String) (content : List (YamlNode × YamlNode))
    (code : String) : code ∈ (mapping style tag content).codesAt inPipeline ↔
      code ∈ (mapping style tag content).gather "blocks" blocksCodes := by
  rw [mem_codesAt_value "blocks" inBlocks (fun _ => rfl)]
  · simp only [gather, List.mem_flatMap, mem_codesAt_inBlocks]
  · intro k p
    simp [inPipeline]

end
end Spade
