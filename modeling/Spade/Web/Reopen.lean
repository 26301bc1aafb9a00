import Mathlib.Data.List.Induction
import Mathlib.Data.List.Nodup
import Spade.Core.Resolution
import Spade.Web.Flow

set_option autoImplicit false

/-!
# Opening and saving a pipeline

What the import makes of the references of a block, and what the export writes for them.
-/
namespace Spade

/-! Sets and maps that are filled one after the other. -/

section
variable {A B : Type} [DecidableEq A]

theorem mem_addNew {l : List A} {a x : A} : x ∈ addNew l a ↔ x ∈ l ∨ x = a := by
  unfold addNew
  split_ifs with h
  · rw [iff_self_or]
    rintro rfl
    exact h
  · rw [List.mem_append, List.mem_singleton]

theorem mem_addNews {l us : List A} {x : A} : x ∈ l.foldl addNew us ↔ x ∈ us ∨ x ∈ l := by
  induction l generalizing us with
  | nil => simp
  | cons a l ih => rw [List.foldl_cons, ih, mem_addNew, List.mem_cons, or_assoc]

theorem addNew_nodup {l : List A} (h : l.Nodup) (a : A) : (addNew l a).Nodup := by
  unfold addNew
  split_ifs with ha
  · exact h
  · exact List.nodup_append.mpr ⟨h, List.nodup_singleton a, fun x hx y hy heq => by
      rw [List.mem_singleton.mp hy] at heq
      exact ha (heq ▸ hx)⟩

theorem addNews_nodup {us : List A} (l : List A) (h : us.Nodup) : (l.foldl addNew us).Nodup := by
  induction l generalizing us with
  | nil => exact h
  | cons a l ih => exact ih (addNew_nodup h a)

theorem filter_addNews {us l : List A} {p : A → Bool} (h : ∀ a ∈ l, p a = false) :
    (l.foldl addNew us).filter p = us.filter p := by
  induction l generalizing us with
  | nil => rfl
  | cons a l ih =>
    rw [List.foldl_cons, ih fun b hb => h b (List.mem_cons_of_mem a hb)]
    unfold addNew
    split_ifs
    · rfl
    · rw [List.filter_append, List.filter_cons_of_neg (by simp [h a List.mem_cons_self]),
        List.filter_nil, List.append_nil]

theorem appendAt_map {us : List A} (hn : us.Nodup) (f : A → List B) (a : A) (b : B) :
    appendAt a b (us.map fun u => (u, f u)) = (addNew us a).map fun u =>
      (u, if u = a then (if a ∈ us then f u else []) ++ [b] else f u) := by
  induction us with
  | nil => simp [appendAt, addNew]
  | cons u us ih =>
    obtain ⟨hu, hn⟩ := List.nodup_cons.mp hn
    rw [List.map_cons, appendAt]
    by_cases hua : u = a
    · subst hua
      rw [if_pos rfl, addNew, if_pos List.mem_cons_self, List.map_cons, if_pos rfl,
        if_pos List.mem_cons_self]
      refine congrArg _ (List.map_congr_left fun v hv => ?_)
      rw [if_neg]
      rintro rfl
      exact hu hv
    · have hmem : a ∈ u :: us ↔ a ∈ us := by simp [Ne.symm hua]
      have hadd : addNew (u :: us) a = u :: addNew us a := by
        unfold addNew
        simp only [hmem]
        split_ifs <;> rfl
      rw [if_neg hua, ih hn, hadd, List.map_cons, if_neg hua]
      simp only [hmem]

/-- Each key with what was appended under it. -/
theorem appendAts_eq (pairs : List (A × B)) :
    pairs.foldl (fun acc e => appendAt e.1 e.2 acc) [] =
      ((pairs.map Prod.fst).foldl addNew []).map fun u =>
        (u, (pairs.filter fun e => e.1 = u).map Prod.snd) := by
  induction pairs using List.reverseRecOn with
  | nil => rfl
  | append_singleton pairs e ih =>
    rw [List.foldl_concat, ih, appendAt_map (addNews_nodup _ List.nodup_nil), List.map_append,
      List.map_singleton, List.foldl_concat]
    refine List.map_congr_left fun u _ => ?_
    rw [List.filter_append, List.map_append]
    by_cases hu : u = e.1
    · subst hu
      rw [if_pos rfl, List.filter_cons_of_pos (by simp), List.filter_nil, List.map_singleton]
      split_ifs with hmem
      · rfl
      · have hnone : pairs.filter (fun e' => e'.1 = e.1) = [] := by
          refine List.filter_eq_nil_iff.mpr fun e' he' => ?_
          rw [decide_eq_true_eq]
          intro heq
          exact hmem (mem_addNews.mpr (.inr (heq ▸ List.mem_map_of_mem he')))
        rw [hnone, List.map_nil]
    · rw [if_neg hu, List.filter_cons_of_neg (by simpa using Ne.symm hu), List.filter_nil,
        List.map_nil, List.append_nil]

end

/-! What the import reads. -/

def bareIds (refs : List InputRef) : List UUID :=
  refs.filterMap fun r => match r.block with
    | none => some r.id
    | some _ => none

/-- The upstream blocks of an imported block, in the order of its edges. -/
def upstreams (refs : List InputRef) : List UUID :=
  (((explicitOutputs refs).map Prod.fst).foldl addNew []).foldl addNew
    ((bareIds refs).foldl addNew [])

def outputsOf (refs : List InputRef) (u : UUID) : List (UUID × String) :=
  (explicitOutputs refs).filter fun x => x.1 = u

/-- What an edge is exported as. -/
def reopenedRefs (refs : List InputRef) (u : UUID) : List InputRef :=
  if u ∈ (explicitOutputs refs).map Prod.fst then
    (outputsOf refs u).map fun x => { block := some u, output := x.2 }
  else [{ id := u }]

def reopened (refs : List InputRef) : List InputRef :=
  (upstreams refs).flatMap (reopenedRefs refs)

theorem groupInputs_eq (refs : List InputRef) : groupInputs refs =
    ((bareIds refs).foldl addNew [], (((explicitOutputs refs).map Prod.fst).foldl addNew []).map
      fun u => (u, (outputsOf refs u).map fun x => ⟨x.2, ""⟩)) := by
  have key : ∀ (refs : List InputRef) (us : List UUID) (gs : List (UUID × List ResolvedBinding)),
      refs.foldl (fun acc ref => match ref.block with
        | none => (addNew acc.1 ref.id, acc.2)
        | some block => (acc.1, appendAt block ⟨ref.output, ""⟩ acc.2)) (us, gs) =
      ((bareIds refs).foldl addNew us, ((explicitOutputs refs).map fun x =>
        (x.1, (⟨x.2, ""⟩ : ResolvedBinding))).foldl (fun acc e => appendAt e.1 e.2 acc) gs) := by
    intro refs
    induction refs with
    | nil => exact fun us gs => rfl
    | cons r refs ih =>
      intro us gs
      rw [List.foldl_cons]
      cases hb : r.block with
      | none =>
        simp only [hb, ih, bareIds, explicitOutputs, List.filterMap_cons, Option.map_none,
          List.foldl_cons]
      | some b =>
        simp only [hb, ih, bareIds, explicitOutputs, List.filterMap_cons, Option.map_some,
          List.map_cons, List.foldl_cons]
  refine (key refs [] []).trans ?_
  rw [appendAts_eq, List.map_map]
  refine Prod.ext rfl (List.map_congr_left fun u _ => ?_)
  rw [List.filter_map, List.map_map]
  rfl

/-- The edge from an upstream block. -/
def importedEdge (t : UUID) (refs : List InputRef) (u : UUID) : FlowEdge :=
  ⟨u, t, if u ∈ (explicitOutputs refs).map Prod.fst then
    ⟨some ((outputsOf refs u).map fun x => ⟨x.2, ""⟩), false⟩ else {}⟩

namespace Flow
variable {f : Flow} {E : List FlowEdge} {t : UUID}

theorem connect_edges {us : List UUID} {data : UUID → EdgeData} (hE : ∀ e ∈ E, e.target ≠ t)
    (hf : f.edges = E ++ us.map fun u => ⟨u, t, data u⟩) (u : UUID) :
    (f.connect u t).edges =
      E ++ us.map (fun u => ⟨u, t, data u⟩) ++ (if u ∈ us then [] else [⟨u, t, {}⟩]) := by
  have hany : (f.edges.any fun e => e.source = u ∧ e.target = t) = true ↔ u ∈ us := by
    rw [hf, List.any_eq_true]
    constructor
    · rintro ⟨e, he, htest⟩
      rw [decide_eq_true_eq] at htest
      rcases List.mem_append.mp he with he | he
      · exact absurd htest.2 (hE e he)
      · obtain ⟨v, hv, rfl⟩ := List.mem_map.mp he
        exact htest.1 ▸ hv
    · intro hu
      exact ⟨_, List.mem_append_right _ (List.mem_map_of_mem hu), by simp⟩
  unfold connect
  by_cases hu : u ∈ us
  · rw [if_pos (hany.mpr hu), if_pos hu, hf, List.append_nil]
  · rw [if_neg (fun h => hu (hany.mp h)), if_neg hu, ← hf]

theorem setData_map {us : List UUID} (hn : us.Nodup) {data : UUID → EdgeData}
    (hE : ∀ e ∈ E, e.target ≠ t) {u : UUID} (hu : u ∈ us) (d : EdgeData) :
    setData u t d (E ++ us.map fun v => ⟨v, t, data v⟩) =
      E ++ us.map fun v => ⟨v, t, if v = u then d else data v⟩ := by
  induction E with
  | cons e E ih =>
    have he : ¬(e.source = u ∧ e.target = t) := fun h => hE e List.mem_cons_self h.2
    rw [List.cons_append, setData, if_neg he, ih fun e' he' => hE e' (List.mem_cons_of_mem e he'),
      List.cons_append]
  | nil =>
    rw [List.nil_append, List.nil_append]
    induction us with
    | nil => cases hu
    | cons v us ih =>
      obtain ⟨hv, hn⟩ := List.nodup_cons.mp hn
      rw [List.map_cons, setData, List.map_cons]
      by_cases hvu : v = u
      · subst hvu
        rw [if_pos ⟨rfl, rfl⟩, if_pos rfl]
        refine congrArg (List.cons _) (List.map_congr_left fun w hw => ?_)
        rw [if_neg]
        rintro rfl
        exact hv hw
      · rw [if_neg (fun h => hvu h.1), if_neg hvu,
          ih hn ((List.mem_cons.mp hu).resolve_left (Ne.symm hvu))]

theorem connects_edges {us : List UUID} (hn : us.Nodup) (hE : ∀ e ∈ E, e.target ≠ t)
    (hf : f.edges = E) : (us.foldl (fun f u => f.connect u t) f).edges =
      E ++ us.map fun u => ⟨u, t, {}⟩ := by
  have key : ∀ (us done : List UUID) (f : Flow), (done ++ us).Nodup →
      f.edges = E ++ done.map (fun u => ⟨u, t, {}⟩) →
      (us.foldl (fun f u => f.connect u t) f).edges =
        E ++ (done ++ us).map fun u => ⟨u, t, {}⟩ := by
    intro us
    induction us with
    | nil =>
      intro done f _ hf
      rw [List.append_nil]
      exact hf
    | cons u us ih =>
      intro done f hn hf
      have hu : u ∉ done := fun hm => (List.nodup_append.mp hn).2.2 u hm u List.mem_cons_self rfl
      rw [List.foldl_cons, List.append_cons]
      refine ih (done ++ [u]) _ (by rwa [← List.append_cons]) ?_
      rw [connect_edges hE hf, if_neg hu, List.map_append, List.append_assoc]
      rfl
  exact key us [] f hn (by rw [hf, List.map_nil, List.append_nil])

/-- The second loop of the import, for the blocks that have explicit references. -/
theorem sets_edges (bs : UUID → List ResolvedBinding) (ks us done : List UUID)
    (hks : (done ++ ks).Nodup) (hus : us.Nodup) (hdone : ∀ u ∈ done, u ∈ us)
    (hE : ∀ e ∈ E, e.target ≠ t)
    (hf : f.edges = E ++ us.map fun u => ⟨u, t, if u ∈ done then ⟨some (bs u), false⟩ else {}⟩) :
    (ks.foldl (fun f u => (f.connect u t).setEdgeData u t ⟨some (bs u), false⟩) f).edges =
      E ++ (ks.foldl addNew us).map fun u =>
        ⟨u, t, if u ∈ done ++ ks then ⟨some (bs u), false⟩ else {}⟩ := by
  induction ks generalizing f us done with
  | nil =>
    rw [List.append_nil]
    exact hf
  | cons k ks ih =>
    have hk : k ∉ done := fun hm => (List.nodup_append.mp hks).2.2 k hm k List.mem_cons_self rfl
    rw [List.foldl_cons, List.foldl_cons, List.append_cons]
    refine ih (addNew us k) (done ++ [k]) (by rwa [← List.append_cons]) (addNew_nodup hus k)
      (fun u hu => ?_) ?_
    · rw [mem_addNew]
      exact (List.mem_append.mp hu).imp (hdone u) List.mem_singleton.mp
    · have hconnect : (f.connect k t).edges = E ++ (addNew us k).map fun u =>
          ⟨u, t, if u ∈ done then ⟨some (bs u), false⟩ else {}⟩ := by
        rw [connect_edges hE hf, List.append_assoc]
        unfold addNew
        split_ifs
        · rw [List.append_nil]
        · rw [List.map_append, List.map_singleton, if_neg hk]
      change setData k t ⟨some (bs k), false⟩ (f.connect k t).edges = _
      rw [hconnect, setData_map (addNew_nodup hus k) hE (mem_addNew.mpr (.inr rfl))]
      refine congrArg _ (List.map_congr_left fun u _ => ?_)
      by_cases huk : u = k
      · subst huk
        rw [if_pos rfl, if_pos (List.mem_append_right _ (List.mem_singleton_self u))]
      · rw [if_neg huk]
        simp only [List.mem_append, List.mem_singleton, huk, or_false]

theorem importInputs_edges {b : PipelineBlock} (hE : ∀ e ∈ f.edges, e.target ≠ b.id) :
    (f.importInputs b).edges = f.edges ++ (upstreams b.inputs).map (importedEdge b.id b.inputs) := by
  unfold importInputs
  rw [groupInputs_eq]
  dsimp only
  rw [List.foldl_map]
  have hbare : ((bareIds b.inputs).foldl addNew []).Nodup := addNews_nodup _ List.nodup_nil
  have hkeys : (((explicitOutputs b.inputs).map Prod.fst).foldl addNew []).Nodup :=
    addNews_nodup _ List.nodup_nil
  have hsets := sets_edges (fun u => (outputsOf b.inputs u).map fun x => ⟨x.2, ""⟩)
    (((explicitOutputs b.inputs).map Prod.fst).foldl addNew [])
    ((bareIds b.inputs).foldl addNew []) [] hkeys hbare nofun hE
    ((connects_edges hbare hE rfl).trans (by simp))
  refine hsets.trans (congrArg _ (List.map_congr_left fun u _ => ?_))
  unfold importedEdge
  simp only [List.nil_append, mem_addNews, List.not_mem_nil, false_or]

theorem importInputs_rest (f : Flow) (b : PipelineBlock) :
    (f.importInputs b).nodes = f.nodes ∧ (f.importInputs b).pipelineMeta = f.pipelineMeta := by
  have hconnect : ∀ (f : Flow) u t, (f.connect u t).nodes = f.nodes ∧
      (f.connect u t).pipelineMeta = f.pipelineMeta := by
    intro f u t
    unfold connect
    split_ifs <;> exact ⟨rfl, rfl⟩
  have hfirst : ∀ (us : List UUID) (f : Flow),
      (us.foldl (fun f u => f.connect u b.id) f).nodes = f.nodes ∧
      (us.foldl (fun f u => f.connect u b.id) f).pipelineMeta = f.pipelineMeta := by
    intro us
    induction us with
    | nil => exact fun f => ⟨rfl, rfl⟩
    | cons u us ih =>
      intro f
      obtain ⟨h₁, h₂⟩ := ih (f.connect u b.id)
      exact ⟨h₁.trans (hconnect f u b.id).1, h₂.trans (hconnect f u b.id).2⟩
  have hsecond : ∀ (gs : List (UUID × List ResolvedBinding)) (f : Flow),
      (gs.foldl (fun f g => (f.connect g.1 b.id).setEdgeData g.1 b.id ⟨some g.2, false⟩) f).nodes =
        f.nodes ∧
      (gs.foldl (fun f g => (f.connect g.1 b.id).setEdgeData g.1 b.id ⟨some g.2, false⟩)
        f).pipelineMeta = f.pipelineMeta := by
    intro gs
    induction gs with
    | nil => exact fun f => ⟨rfl, rfl⟩
    | cons g gs ih =>
      intro f
      obtain ⟨h₁, h₂⟩ := ih ((f.connect g.1 b.id).setEdgeData g.1 b.id ⟨some g.2, false⟩)
      exact ⟨h₁.trans (hconnect f g.1 b.id).1, h₂.trans (hconnect f g.1 b.id).2⟩
  unfold importInputs
  obtain ⟨h₁, h₂⟩ := hsecond (groupInputs b.inputs).2
    ((groupInputs b.inputs).1.foldl (fun f u => f.connect u b.id) f)
  exact ⟨h₁.trans (hfirst _ f).1, h₂.trans (hfirst _ f).2⟩

theorem imports_edges {bs : List PipelineBlock} (hn : (bs.map PipelineBlock.id).Nodup) {f : Flow}
    (hf : ∀ e ∈ f.edges, e.target ∉ bs.map PipelineBlock.id) :
    (bs.foldl importInputs f).edges =
      f.edges ++ bs.flatMap fun b => (upstreams b.inputs).map (importedEdge b.id b.inputs) := by
  induction bs generalizing f with
  | nil => simp
  | cons b bs ih =>
    rw [List.map_cons, List.nodup_cons] at hn
    have hb : ∀ e ∈ f.edges, e.target ≠ b.id := fun e he heq =>
      hf e he (heq ▸ List.mem_cons_self)
    rw [List.foldl_cons, ih hn.2, importInputs_edges hb, List.flatMap_cons, List.append_assoc]
    intro e he
    rw [importInputs_edges hb] at he
    rcases List.mem_append.mp he with he | he
    · exact fun hm => hf e he (List.mem_cons_of_mem _ hm)
    · obtain ⟨u, -, rfl⟩ := List.mem_map.mp he
      exact hn.1

theorem imports_rest (bs : List PipelineBlock) (f : Flow) :
    (bs.foldl importInputs f).nodes = f.nodes ∧
      (bs.foldl importInputs f).pipelineMeta = f.pipelineMeta := by
  induction bs generalizing f with
  | nil => exact ⟨rfl, rfl⟩
  | cons b bs ih =>
    obtain ⟨h₁, h₂⟩ := ih (f.importInputs b)
    exact ⟨h₁.trans (importInputs_rest f b).1, h₂.trans (importInputs_rest f b).2⟩

theorem importedEdge_refs (t : UUID) (refs : List InputRef) (u : UUID) :
    (importedEdge t refs u).refs = reopenedRefs refs u := by
  unfold importedEdge reopenedRefs FlowEdge.refs
  by_cases hu : u ∈ (explicitOutputs refs).map Prod.fst
  · rw [if_pos hu, if_pos hu]
    have hne : outputsOf refs u ≠ [] := by
      obtain ⟨x, hx, rfl⟩ := List.mem_map.mp hu
      exact List.ne_nil_of_mem (List.mem_filter.mpr ⟨hx, decide_eq_true rfl⟩)
    obtain ⟨x, l, hl⟩ := List.exists_cons_of_ne_nil hne
    simp [hl]
  · rw [if_neg hu, if_neg hu]

/-- What the editor makes of a block. -/
def reopenBlock (b : PipelineBlock) : PipelineBlock where
  id := b.id
  name := b.name
  inputs := reopened b.inputs
  args := some (b.args.getD ∅)

theorem refsInto_imported {bs : List PipelineBlock} (hn : (bs.map PipelineBlock.id).Nodup)
    {b : PipelineBlock} (hb : b ∈ bs) :
    ((bs.flatMap fun b => (upstreams b.inputs).map (importedEdge b.id b.inputs)).filter
      fun e => e.target = b.id).flatMap FlowEdge.refs = reopened b.inputs := by
  induction bs with
  | nil => cases hb
  | cons c bs ih =>
    rw [List.map_cons, List.nodup_cons] at hn
    rw [List.flatMap_cons, List.filter_append, List.flatMap_append]
    have hhead : c.id = b.id → ((upstreams c.inputs).map (importedEdge c.id c.inputs)).filter
        (fun e => e.target = b.id) = (upstreams c.inputs).map (importedEdge c.id c.inputs) := by
      intro hid
      refine List.filter_eq_self.mpr fun e he => ?_
      obtain ⟨u, -, rfl⟩ := List.mem_map.mp he
      exact decide_eq_true hid
    have hnone : ∀ c : PipelineBlock, c.id ≠ b.id →
        ((upstreams c.inputs).map (importedEdge c.id c.inputs)).filter
          (fun e => e.target = b.id) = [] := by
      intro c hid
      refine List.filter_eq_nil_iff.mpr fun e he => ?_
      obtain ⟨u, -, rfl⟩ := List.mem_map.mp he
      rw [decide_eq_true_eq]
      exact hid
    rcases List.mem_cons.mp hb with rfl | hb
    · have hrest : (bs.flatMap fun b => (upstreams b.inputs).map (importedEdge b.id b.inputs)).filter
          (fun e => e.target = b.id) = [] := by
        rw [List.filter_flatMap]
        refine List.flatMap_eq_nil_iff.mpr fun c hc => hnone c fun hid => ?_
        exact hn.1 (hid ▸ List.mem_map_of_mem hc)
      rw [hhead rfl, hrest, List.flatMap_nil, List.append_nil, List.flatMap_map, reopened]
      exact List.flatMap_congr fun u _ => importedEdge_refs b.id b.inputs u
    · have hid : c.id ≠ b.id := fun heq => hn.1 (heq ▸ List.mem_map_of_mem hb)
      rw [hnone c hid, List.flatMap_nil, List.nil_append, ih hn.2 hb]

/-- The blocks of a pipeline that was opened and saved. -/
theorem reopen_blocks {p : Pipeline} (hn : p.blockIDs.Nodup) (v7 : UUID) :
    ((yamlToNodes p).exportPipelineObject v7).blocks = p.blocks.map reopenBlock := by
  have hnodes : (yamlToNodes p).nodes = p.blocks.map importNode := (imports_rest p.blocks _).1
  have hedges : (yamlToNodes p).edges =
      p.blocks.flatMap fun b => (upstreams b.inputs).map (importedEdge b.id b.inputs) :=
    imports_edges hn nofun
  have hids : ((yamlToNodes p).nodes.map FlowNode.id).Nodup := by
    rw [hnodes, List.map_map]
    exact hn
  change (yamlToNodes p).exportBlocks = _
  rw [exportBlocks_eq hids, hnodes, List.map_map]
  refine List.map_congr_left fun b hb => ?_
  have hrefs : (yamlToNodes p).refsInto b.id = reopened b.inputs := by
    unfold refsInto
    rw [hedges]
    exact refsInto_imported hn hb
  change { (importNode b).block with inputs := (yamlToNodes p).refsInto b.id } = _
  rw [hrefs]
  rfl

end Flow

end Spade
