import Spade.Core.Types

set_option autoImplicit false

/-!
# The editor store

Nodes and edges of the flow chart, and their way from and to a pipeline. The ids are
canonical UUID strings, which stand here as the UUIDs; an edge is known by its two ends, of
which its id is made.
-/
namespace Spade

structure ResolvedBinding where
  output : String
  input : String
  deriving DecidableEq

structure EdgeData where
  bindings : Option (List ResolvedBinding) := none
  unresolved : Bool := false
  deriving DecidableEq

structure FlowEdge where
  source : UUID
  target : UUID
  data : EdgeData := {}
  deriving DecidableEq

structure FlowNode where
  id : UUID
  label : String
  name : String
  args : GoMap String Value := ∅

structure PipelineMeta where
  name : String := "untitled-pipeline"
  version : String := "0.1.0"
  description : String := ""

structure Flow where
  nodes : List FlowNode := []
  edges : List FlowEdge := []
  pipelineMeta : PipelineMeta := {}

namespace Flow

/-- At most one edge connects two nodes in one direction. -/
def connect (source target : UUID) (f : Flow) : Flow :=
  if f.edges.any fun e => e.source = source ∧ e.target = target then f
  else { f with edges := f.edges ++ [⟨source, target, {}⟩] }

/-- Replace the data of the first edge between two nodes. -/
def setData (source target : UUID) (data : EdgeData) : List FlowEdge → List FlowEdge
  | [] => []
  | e :: l =>
    if e.source = source ∧ e.target = target then { e with data := data } :: l
    else e :: setData source target data l

def setEdgeData (source target : UUID) (data : EdgeData) (f : Flow) : Flow :=
  { f with edges := setData source target data f.edges }

end Flow

/-! Import. -/

/-- `Set.add`. -/
def addNew {A : Type} [DecidableEq A] (l : List A) (a : A) : List A :=
  if a ∈ l then l else l ++ [a]

/-- Append to the list that a `Map` holds under a key, or set it. -/
def appendAt {A B : Type} [DecidableEq A] (a : A) (b : B) : List (A × List B) → List (A × List B)
  | [] => [(a, [b])]
  | e :: l => if e.1 = a then (a, e.2 ++ [b]) :: l else e :: appendAt a b l

/-- The references of a block by upstream: the bare ones, and the bindings of the explicit
ones, whose `as` is not read. -/
def groupInputs (inputs : List InputRef) : List UUID × List (UUID × List ResolvedBinding) :=
  inputs.foldl (fun acc ref =>
    match ref.block with
    | none => (addNew acc.1 ref.id, acc.2)
    | some block => (acc.1, appendAt block ⟨ref.output, ""⟩ acc.2)) ([], [])

namespace Flow

/-- The edges into a block of an imported pipeline. -/
def importInputs (f : Flow) (b : PipelineBlock) : Flow :=
  let groups := groupInputs b.inputs
  let f := groups.1.foldl (fun f upstream => f.connect upstream b.id) f
  groups.2.foldl (fun f g => (f.connect g.1 b.id).setEdgeData g.1 b.id ⟨some g.2, false⟩) f

def importNode (b : PipelineBlock) : FlowNode := ⟨b.id, b.name, b.name, b.args.getD ∅⟩

def yamlToNodes (pipe : Pipeline) : Flow :=
  pipe.blocks.foldl importInputs
    { nodes := pipe.blocks.map importNode
      pipelineMeta := ⟨pipe.name, pipe.version, pipe.description⟩ }

end Flow

/-! Export. -/

/-- The references that an edge is exported as. -/
def FlowEdge.refs (e : FlowEdge) : List InputRef :=
  match e.data.bindings with
  | some (b :: bs) => (b :: bs).map fun b => { block := some e.source, output := b.output }
  | _ => [{ id := e.source }]

def FlowNode.block (n : FlowNode) : PipelineBlock where
  id := n.id
  name := n.name
  args := some n.args

/-- Push references to the block that a lookup by id has, the last one with the id. -/
def pushInputs (id : UUID) (refs : List InputRef) : List PipelineBlock → List PipelineBlock
  | [] => []
  | b :: l =>
    if b.id = id ∧ id ∉ l.map PipelineBlock.id then { b with inputs := b.inputs ++ refs } :: l
    else b :: pushInputs id refs l

namespace Flow

def exportBlocks (f : Flow) : List PipelineBlock :=
  f.edges.foldl (fun blocks e => pushInputs e.target e.refs blocks) (f.nodes.map FlowNode.block)

def exportPipelineObject (v7 : UUID) (f : Flow) : Pipeline where
  id := v7
  name := f.pipelineMeta.name
  version := f.pipelineMeta.version
  description := f.pipelineMeta.description
  blocks := f.exportBlocks

/-- The references into a node, in the order of the edges. -/
def refsInto (f : Flow) (id : UUID) : List InputRef :=
  (f.edges.filter fun e => e.target = id).flatMap FlowEdge.refs

end Flow

/-! What is exported. -/

theorem pushInputs_ids (id : UUID) (refs : List InputRef) (l : List PipelineBlock) :
    (pushInputs id refs l).map PipelineBlock.id = l.map PipelineBlock.id := by
  induction l with
  | nil => rfl
  | cons b l ih =>
    unfold pushInputs
    split
    · rfl
    · rw [List.map_cons, ih, List.map_cons]

theorem pushInputs_eq {l : List PipelineBlock} (hn : (l.map PipelineBlock.id).Nodup) (id : UUID)
    (refs : List InputRef) : pushInputs id refs l = l.map fun b =>
      if b.id = id then { b with inputs := b.inputs ++ refs } else b := by
  induction l with
  | nil => rfl
  | cons b l ih =>
    rw [List.map_cons, List.nodup_cons] at hn
    unfold pushInputs
    by_cases hid : b.id = id
    · subst hid
      rw [if_pos ⟨rfl, hn.1⟩, List.map_cons, if_pos rfl, List.map_congr_left, List.map_id']
      intro c hc
      rw [if_neg]
      rintro heq
      exact hn.1 (heq ▸ List.mem_map_of_mem hc)
    · rw [if_neg (fun h => hid h.1), ih hn.2, List.map_cons, if_neg hid]

theorem foldl_pushInputs (edges : List FlowEdge) {l : List PipelineBlock}
    (hn : (l.map PipelineBlock.id).Nodup) :
    edges.foldl (fun blocks e => pushInputs e.target e.refs blocks) l = l.map fun b =>
      { b with inputs := b.inputs ++
          (edges.filter fun e => e.target = b.id).flatMap FlowEdge.refs } := by
  induction edges generalizing l with
  | nil => simp
  | cons e edges ih =>
    rw [List.foldl_cons, ih (by rw [pushInputs_ids]; exact hn), pushInputs_eq hn, List.map_map]
    refine List.map_congr_left fun b _ => ?_
    dsimp only [Function.comp_apply]
    by_cases hid : b.id = e.target
    · rw [if_pos hid, List.filter_cons_of_pos (by simp [hid])]
      simp
    · rw [if_neg hid, List.filter_cons_of_neg (by simpa using Ne.symm hid)]

/-- With distinct ids every node is exported with the references of the edges into it. -/
theorem Flow.exportBlocks_eq {f : Flow} (hn : (f.nodes.map FlowNode.id).Nodup) :
    f.exportBlocks = f.nodes.map fun n => { n.block with inputs := f.refsInto n.id } := by
  unfold Flow.exportBlocks
  rw [foldl_pushInputs, List.map_map]
  · rfl
  · rw [List.map_map]
    exact hn

end Spade
