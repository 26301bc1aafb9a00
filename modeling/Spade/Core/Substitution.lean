import Spade.Core.ShortCodes

set_option autoImplicit false

/-!
# Rewriting the scalars of a tree by their paths

The short codes of a pipeline stand at the paths `blocks[i].id`, `blocks[i].inputs[j]` and
`blocks[i].inputs[j].block`.
-/
namespace Spade
open UUIDPackage

/-- From a node to the next one below it: an item, some key, or the value at a key. -/
inductive Label where
  | item (i : ℕ)
  | key
  | value (key : String)
  deriving DecidableEq

namespace YamlNode

mutual

def mapScalars (g : List Label → Scalar → Scalar) : YamlNode → YamlNode
  | sequence style tag content => sequence style tag (mapItems g 0 content)
  | mapping style tag content => mapping style tag (mapEntries g content)
  | scalar s => scalar (g [] s)

def mapItems (g : List Label → Scalar → Scalar) : ℕ → List YamlNode → List YamlNode
  | _, [] => []
  | i, n :: l => mapScalars (fun p => g (.item i :: p)) n :: mapItems g (i + 1) l

def mapEntries (g : List Label → Scalar → Scalar) : List (YamlNode × YamlNode) → List (YamlNode × YamlNode)
  | [] => []
  | (k, v) :: l =>
    (mapScalars (fun p => g (.key :: p)) k, mapScalars (fun p => g (.value k.value :: p)) v) ::
      mapEntries g l

end

mutual

def collect (c : List Label → Scalar → List String) : YamlNode → List String
  | sequence _ _ content => collectItems c 0 content
  | mapping _ _ content => collectEntries c content
  | scalar s => c [] s

def collectItems (c : List Label → Scalar → List String) : ℕ → List YamlNode → List String
  | _, [] => []
  | i, n :: l => collect (fun p => c (.item i :: p)) n ++ collectItems c (i + 1) l

def collectEntries (c : List Label → Scalar → List String) : List (YamlNode × YamlNode) → List String
  | [] => []
  | (k, v) :: l =>
    collect (fun p => c (.key :: p)) k ++ collect (fun p => c (.value k.value :: p)) v ++
      collectEntries c l

end

mutual

/-- No mapping has a key twice, as yaml.v3 tells keys apart. -/
def NoDuplicates : YamlNode → Prop
  | sequence _ _ content => NoDuplicatesItems content
  | mapping _ _ content =>
    (content.map fun e => (e.1.kind, e.1.value)).Nodup ∧ NoDuplicatesEntries content
  | scalar _ => True

def NoDuplicatesItems : List YamlNode → Prop
  | [] => True
  | n :: l => NoDuplicates n ∧ NoDuplicatesItems l

def NoDuplicatesEntries : List (YamlNode × YamlNode) → Prop
  | [] => True
  | (k, v) :: l => NoDuplicates k ∧ NoDuplicates v ∧ NoDuplicatesEntries l

end

end YamlNode

def Scalar.codes (s : Scalar) : List String := if isShortCode s.value then [s.value] else []

def Scalar.rewrite [UUIDPackage] (f : String → UUID) (s : Scalar) : Scalar :=
  if isShortCode s.value then ⟨0, "", string (f s.value)⟩ else s

namespace YamlNode

/-- Rewrite the short codes at the paths. -/
def rewriteAt [UUIDPackage] (paths : List Label → Bool) (f : String → UUID) (n : YamlNode) : YamlNode :=
  n.mapScalars fun p s => if paths p then s.rewrite f else s

/-- The short codes at the paths. -/
def codesAt (paths : List Label → Bool) (n : YamlNode) : List String :=
  n.collect fun p s => if paths p then s.codes else []

/-- Change the values at a key. -/
def update (key : String) (h : YamlNode → YamlNode) : YamlNode → YamlNode
  | mapping style tag content =>
    mapping style tag (content.map fun e => if e.1.value = key then (e.1, h e.2) else e)
  | n => n

def gather (key : String) (c : YamlNode → List String) : YamlNode → List String
  | mapping _ _ content => (content.filter fun e => e.1.value = key).flatMap fun e => c e.2
  | _ => []

end YamlNode

/-! The paths of the short codes, level by level. -/

def inItem : List Label → Bool
  | [] => true
  | [.value k] => k = "block"
  | _ => false

def inInputs : List Label → Bool
  | .item _ :: p => inItem p
  | _ => false

def inBlock : List Label → Bool
  | .value k :: p => k = "id" ∧ p = [] ∨ k = "inputs" ∧ inInputs p
  | _ => false

def inBlocks : List Label → Bool
  | .item _ :: p => inBlock p
  | _ => false

def inPipeline : List Label → Bool
  | .value k :: p => k = "blocks" ∧ inBlocks p
  | _ => false

namespace YamlNode

mutual

theorem mapScalars_id {g : List Label → Scalar → Scalar} (h : ∀ p s, g p s = s) (n : YamlNode) :
    n.mapScalars g = n := by
  cases n with
  | sequence style tag content => exact congrArg _ (mapItems_id h 0 content)
  | mapping style tag content => exact congrArg _ (mapEntries_id h content)
  | scalar s => exact congrArg scalar (h [] s)

theorem mapItems_id {g : List Label → Scalar → Scalar} (h : ∀ p s, g p s = s) (i : ℕ)
    (l : List YamlNode) : mapItems g i l = l := by
  cases l with
  | nil => rfl
  | cons n l => rw [mapItems, mapScalars_id (fun p => h _) n, mapItems_id h (i + 1) l]

theorem mapEntries_id {g : List Label → Scalar → Scalar} (h : ∀ p s, g p s = s)
    (l : List (YamlNode × YamlNode)) : mapEntries g l = l := by
  cases l with
  | nil => rfl
  | cons e l =>
    obtain ⟨k, v⟩ := e
    rw [mapEntries, mapScalars_id (fun p => h _) k, mapScalars_id (fun p => h _) v,
      mapEntries_id h l]

end

mutual

theorem collect_nil {c : List Label → Scalar → List String} (h : ∀ p s, c p s = []) (n : YamlNode) :
    n.collect c = [] := by
  cases n with
  | sequence style tag content => exact collectItems_nil h 0 content
  | mapping style tag content => exact collectEntries_nil h content
  | scalar s => exact h [] s

theorem collectItems_nil {c : List Label → Scalar → List String} (h : ∀ p s, c p s = []) (i : ℕ)
    (l : List YamlNode) : collectItems c i l = [] := by
  cases l with
  | nil => rfl
  | cons n l => rw [collectItems, collect_nil (fun p => h _) n, collectItems_nil h (i + 1) l]; rfl

theorem collectEntries_nil {c : List Label → Scalar → List String} (h : ∀ p s, c p s = [])
    (l : List (YamlNode × YamlNode)) : collectEntries c l = [] := by
  cases l with
  | nil => rfl
  | cons e l =>
    obtain ⟨k, v⟩ := e
    rw [collectEntries, collect_nil (fun p => h _) k, collect_nil (fun p => h _) v,
      collectEntries_nil h l]
    rfl

end

theorem noDuplicatesItems_iff (l : List YamlNode) :
    NoDuplicatesItems l ↔ ∀ n ∈ l, n.NoDuplicates := by
  induction l with
  | nil => simp [NoDuplicatesItems]
  | cons n l ih => rw [NoDuplicatesItems, ih, List.forall_mem_cons]

theorem NoDuplicatesEntries.value {l : List (YamlNode × YamlNode)} (h : NoDuplicatesEntries l) :
    ∀ e ∈ l, e.2.NoDuplicates := by
  induction l with
  | nil => exact fun e he => absurd he List.not_mem_nil
  | cons e l ih =>
    obtain ⟨k, v⟩ := e
    obtain ⟨-, hv, hl⟩ := h
    exact List.forall_mem_cons.mpr ⟨hv, ih hl⟩

section
variable [UUIDPackage] {paths : List Label → Bool} {f : String → UUID}

theorem rewriteAt_none (h : ∀ p, paths p = false) (n : YamlNode) : n.rewriteAt paths f = n :=
  mapScalars_id (fun p s => by rw [h p]; rfl) n

theorem rewriteAt_items (paths' : List Label → Bool) (h : ∀ i p, paths (.item i :: p) = paths' p) (style : ℕ) (tag : String)
    (content : List YamlNode) : (sequence style tag content).rewriteAt paths f =
      sequence style tag (content.map fun n => n.rewriteAt paths' f) := by
  have key : ∀ (i : ℕ) (l : List YamlNode),
      mapItems (fun p s => if paths p then s.rewrite f else s) i l =
        l.map fun n => n.rewriteAt paths' f := by
    intro i l
    induction l generalizing i with
    | nil => rfl
    | cons n l ih =>
      rw [mapItems, ih, List.map_cons]
      simp only [h, rewriteAt]
  exact congrArg _ (key 0 content)

theorem rewriteAt_entries (h : ∀ p, paths (.key :: p) = false) (style : ℕ) (tag : String)
    (content : List (YamlNode × YamlNode)) : (mapping style tag content).rewriteAt paths f =
      mapping style tag (content.map fun e =>
        (e.1, e.2.rewriteAt (fun p => paths (.value e.1.value :: p)) f)) := by
  have key : ∀ l : List (YamlNode × YamlNode),
      mapEntries (fun p s => if paths p then s.rewrite f else s) l =
        l.map fun e => (e.1, e.2.rewriteAt (fun p => paths (.value e.1.value :: p)) f) := by
    intro l
    induction l with
    | nil => rfl
    | cons e l ih =>
      obtain ⟨k, v⟩ := e
      rw [mapEntries, ih, List.map_cons, mapScalars_id]
      · rfl
      · intro p s
        rw [h p]
        rfl
  exact congrArg _ (key content)

end

section
variable {paths : List Label → Bool}

theorem codesAt_none (h : ∀ p, paths p = false) (n : YamlNode) : n.codesAt paths = [] :=
  collect_nil (fun p s => by rw [h p]; rfl) n

theorem codesAt_items (paths' : List Label → Bool) (h : ∀ i p, paths (.item i :: p) = paths' p) (style : ℕ) (tag : String)
    (content : List YamlNode) : (sequence style tag content).codesAt paths =
      content.flatMap fun n => n.codesAt paths' := by
  have key : ∀ (i : ℕ) (l : List YamlNode),
      collectItems (fun p s => if paths p then s.codes else []) i l =
        l.flatMap fun n => n.codesAt paths' := by
    intro i l
    induction l generalizing i with
    | nil => rfl
    | cons n l ih =>
      rw [collectItems, ih, List.flatMap_cons]
      simp only [h, codesAt]
  exact key 0 content

theorem codesAt_entries (h : ∀ p, paths (.key :: p) = false) (style : ℕ) (tag : String)
    (content : List (YamlNode × YamlNode)) : (mapping style tag content).codesAt paths =
      content.flatMap fun e => e.2.codesAt fun p => paths (.value e.1.value :: p) := by
  have key : ∀ l : List (YamlNode × YamlNode),
      collectEntries (fun p s => if paths p then s.codes else []) l =
        l.flatMap fun e => e.2.codesAt fun p => paths (.value e.1.value :: p) := by
    intro l
    induction l with
    | nil => rfl
    | cons e l ih =>
      obtain ⟨k, v⟩ := e
      rw [collectEntries, ih, List.flatMap_cons, collect_nil]
      · rfl
      · intro p s
        rw [h p]
        rfl
  exact key content

end
end YamlNode
end Spade
