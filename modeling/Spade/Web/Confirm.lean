import Spade.Web.Candidates

set_option autoImplicit false

/-!
# A connection that the user resolves

An edge is drawn, `resolveAndApply` stores what is unambiguous, and the dialogue stores what the
user confirms.
-/
namespace Spade

namespace Flow

def getNameById (id : UUID) (f : Flow) : Option String :=
  (f.nodes.find? fun n => n.id = id).map FlowNode.name

def getEdgeData (source target : UUID) (f : Flow) : Option EdgeData :=
  (f.edges.find? fun e => e.source = source ∧ e.target = target).map FlowEdge.data

end Flow

inductive ApplyStatus where
  | resolved | ambiguous | invalid | unknown
  deriving DecidableEq

/-- The manifests of the two ends of an edge; a block without a name has none. -/
def endManifests (loadManifest : String → Option BlockManifest) (source target : UUID) (f : Flow) :
    Option (BlockManifest × BlockManifest) :=
  match f.getNameById source, f.getNameById target with
  | some upstreamName, some downstreamName =>
    if upstreamName = "" ∨ downstreamName = "" then none
    else
      match loadManifest upstreamName, loadManifest downstreamName with
      | some upstream, some downstream => some (upstream, downstream)
      | _, _ => none
  | _, _ => none

def resolveAndApply (loadManifest : String → Option BlockManifest) (source target : UUID)
    (f : Flow) : Flow × ApplyStatus :=
  match endManifests loadManifest source target f with
  | none => (f, .unknown)
  | some (upstream, downstream) =>
    match resolveConnection upstream downstream [] with
    | .invalid _ => (f, .invalid)
    | .ambiguous _ _ _ locked =>
      (f.setEdgeData source target { bindings := some locked, unresolved := true }, .ambiguous)
    | .ok bindings =>
      (f.setEdgeData source target { bindings := some bindings, unresolved := false }, .resolved)

/-- The dialogue loads the manifests again, and is confirmed after some clicks. -/
inductive Confirms (loadManifest : String → Option BlockManifest) (source target : UUID) :
    Flow → Flow → Prop where
  | mk {f : Flow} {upstream downstream : BlockManifest} {candidates : List (String × List String)}
      {ins outs : List (String × String)} {locked bindings : List ResolvedBinding}
      {clicks : List (String × String)}
      (hends : endManifests loadManifest source target f = some (upstream, downstream))
      (hopen : resolveConnection upstream downstream [] = .ambiguous candidates ins outs locked)
      (hclicks : ∀ c ∈ clicks, Shown candidates c)
      (hconfirm : handleConfirm candidates (clicks.foldl (fun s c => select s c.1 c.2)
        (initialSelections candidates)) = some bindings) :
      Confirms loadManifest source target f
        (f.setEdgeData source target { bindings := some bindings, unresolved := false })

/-- The bindings keep those stored before, bind no input twice, and bind every input that was open
and could be bound. -/
structure Completes (upstream downstream : BlockManifest) (stored bindings : List ResolvedBinding) :
    Prop where
  kept : ∀ b ∈ stored, b ∈ bindings
  once : (bindings.map ResolvedBinding.input).Nodup
  bound : ∀ n inp, OpenInput downstream stored n inp → (∃ o, Candidate upstream stored inp o) →
    ∃ b ∈ bindings, b.input = n ∧ ∃ out, upstream.outputs.lookup b.output = some out ∧
      portsCompatible out inp = true

/-- Whatever flow an edge is drawn in, and whatever the user confirms then, the edge's bindings
complete those that `resolveAndApply` stored. -/
def ConfirmKeeps (upstream downstream : BlockManifest) : Prop :=
  ∀ loadManifest source target f f₁ f₂,
    endManifests loadManifest source target f = some (upstream, downstream) →
    (f.getEdgeData source target).isSome →
    resolveAndApply loadManifest source target f = (f₁, .ambiguous) →
    Confirms loadManifest source target f₁ f₂ →
    ∃ stored bindings, f₁.getEdgeData source target = some ⟨some stored, true⟩ ∧
      f₂.getEdgeData source target = some ⟨some bindings, false⟩ ∧
      Completes upstream downstream stored bindings

/-- If the user can confirm, nothing was stored, and all inputs that could be bound are listed. -/
def NothingLost (upstream downstream : BlockManifest) : Prop :=
  ∀ candidates ins outs locked,
    resolveConnection upstream downstream [] = .ambiguous candidates ins outs locked →
    (∃ c ∈ candidates, ∀ option ∈ c.2, option = "") ∨
    (locked = [] ∧ ∀ n inp, OpenInput downstream locked n inp →
      (∃ o, Candidate upstream locked inp o) → n ∈ candidates.map Prod.fst)

namespace Flow

theorem find_setData (source target : UUID) (data : EdgeData) (l : List FlowEdge) :
    (setData source target data l).find? (fun e => e.source = source ∧ e.target = target) =
      (l.find? fun e => e.source = source ∧ e.target = target).map ({ · with data }) := by
  induction l with
  | nil => rfl
  | cons e l ih =>
    unfold setData
    split_ifs with h
    · rw [List.find?_cons_of_pos (by simpa using h), List.find?_cons_of_pos (by simpa using h)]
      rfl
    · rw [List.find?_cons_of_neg (by simpa using h), List.find?_cons_of_neg (by simpa using h), ih]

theorem getEdgeData_set {source target : UUID} {f : Flow} (data : EdgeData)
    (h : (f.getEdgeData source target).isSome) :
    (f.setEdgeData source target data).getEdgeData source target = some data := by
  unfold getEdgeData at h ⊢
  rw [Option.isSome_map] at h
  obtain ⟨e, he⟩ := Option.isSome_iff_exists.mp h
  rw [setEdgeData, find_setData, he]
  rfl

end Flow

/-! The selections of the dialogue. -/

section
variable {candidates : List (String × List String)} {selections clicks : List (String × String)}

theorem initial_shown : ∀ e ∈ initialSelections candidates, Shown candidates e := by
  intro e he
  obtain ⟨c, hc, hhead⟩ := List.mem_filterMap.mp he
  obtain ⟨option, hoption, rfl⟩ := Option.map_eq_some_iff.mp hhead
  exact ⟨c, hc, rfl, List.mem_of_mem_head? hoption⟩

theorem mem_select {input option : String} {e : String × String} :
    e ∈ select selections input option →
      e = (input, option) ∨ e ∈ selections := by
  unfold select
  split_ifs
  · intro he
    obtain ⟨e', he', rfl⟩ := List.mem_map.mp he
    split_ifs
    · exact .inl rfl
    · exact .inr he'
  · exact fun he => (List.mem_append.mp he).symm.imp_left List.mem_singleton.mp

theorem selected (selections : List (String × String)) (input option : String) :
    (input, option) ∈ select selections input option := by
  unfold select
  split_ifs with h
  · obtain ⟨e, he, heq⟩ := List.mem_map.mp h
    exact List.mem_map.mpr ⟨e, he, if_pos heq⟩
  · exact List.mem_append_right _ (List.mem_singleton_self _)

theorem select_other {input option : String} {e : String × String} (he : e ∈ selections)
    (hne : e.1 ≠ input) : e ∈ select selections input option := by
  unfold select
  split_ifs
  · exact List.mem_map.mpr ⟨e, he, if_neg hne⟩
  · exact List.mem_append_left _ he

/-- Only options shown are selected. -/
theorem selections_shown (hclicks : ∀ c ∈ clicks, Shown candidates c)
    (h : ∀ e ∈ selections, Shown candidates e) :
    ∀ e ∈ clicks.foldl (fun s c => select s c.1 c.2) selections, Shown candidates e := by
  induction clicks generalizing selections with
  | nil => exact h
  | cons c clicks ih =>
    refine ih (fun c' hc' => hclicks c' (List.mem_cons_of_mem c hc')) fun e he => ?_
    rcases mem_select he with rfl | he
    · exact hclicks c List.mem_cons_self
    · exact h e he

/-- What is clicked for different inputs is selected. -/
theorem clicks_selected (hn : (clicks.map Prod.fst).Nodup) (selections : List (String × String)) :
    ∀ c ∈ clicks, c ∈ clicks.foldl (fun s c => select s c.1 c.2) selections := by
  have hkeep : ∀ (clicks selections : List (String × String)) (e : String × String),
      e ∈ selections → e.1 ∉ clicks.map Prod.fst →
      e ∈ clicks.foldl (fun s c => select s c.1 c.2) selections := by
    intro clicks
    induction clicks with
    | nil => exact fun _ _ he _ => he
    | cons c clicks ih =>
      intro selections e he hnot
      rw [List.map_cons, List.mem_cons, not_or] at hnot
      exact ih _ e (select_other he hnot.1) hnot.2
  induction clicks generalizing selections with
  | nil => exact nofun
  | cons c clicks ih =>
    obtain ⟨hnot, hn⟩ := List.nodup_cons.mp hn
    intro c' hc'
    rcases List.mem_cons.mp hc' with rfl | hc'
    · exact hkeep clicks _ c' (selected _ _ _) hnot
    · exact ih hn _ c' hc'

theorem handleConfirm_eq {bindings : List ResolvedBinding} :
    handleConfirm candidates selections = some bindings ↔
      (∀ c ∈ candidates, ∃ e ∈ selections, e.1 = c.1 ∧ e.2 ≠ "") ∧
        bindings = selections.map fun e => ⟨e.2, e.1⟩ := by
  unfold handleConfirm
  split_ifs with h
  · have hall : ∀ c ∈ candidates, ∃ e ∈ selections, e.1 = c.1 ∧ e.2 ≠ "" := by simpa using h
    exact ⟨fun heq => ⟨hall, (Option.some.inj heq).symm⟩, fun heq => congrArg some heq.2.symm⟩
  · exact ⟨nofun, fun heq => absurd (by simpa using heq.1) h⟩

/-- If every input listed has an option with a name, the user can confirm. -/
theorem exists_confirm (hn : (candidates.map Prod.fst).Nodup)
    (h : ∀ c ∈ candidates, ∃ option ∈ c.2, option ≠ "") :
    ∃ (clicks : List (String × String)) (bindings : List ResolvedBinding),
      (∀ c ∈ clicks, Shown candidates c) ∧ handleConfirm candidates
        (clicks.foldl (fun s c => select s c.1 c.2) (initialSelections candidates)) =
          some bindings := by
  choose! pick hpick hname using h
  have hkeys : ((candidates.map fun c => (c.1, pick c)).map Prod.fst).Nodup := by
    rw [List.map_map]
    exact hn
  refine ⟨candidates.map fun c => (c.1, pick c), _, fun e he => ?_,
    handleConfirm_eq.mpr ⟨fun c hc => ⟨(c.1, pick c), ?_, rfl, hname c hc⟩, rfl⟩⟩
  · obtain ⟨c, hc, rfl⟩ := List.mem_map.mp he
    exact ⟨c, hc, rfl, hpick c hc⟩
  · exact clicks_selected hkeys _ _ (List.mem_map_of_mem hc)

end

section
variable {upstream downstream : BlockManifest} {candidates : List (String × List String)}
  {ins outs : List (String × String)} {locked bindings : List ResolvedBinding}
  (h : resolveConnection upstream downstream [] = .ambiguous candidates ins outs locked)
include h

/-- What the user confirms are bindings of the inputs listed. -/
theorem confirmed_listed {clicks : List (String × String)}
    (hclicks : ∀ c ∈ clicks, Shown candidates c)
    (hconfirm : handleConfirm candidates (clicks.foldl (fun s c => select s c.1 c.2)
      (initialSelections candidates)) = some bindings) :
    (bindings.map ResolvedBinding.input).Nodup ∧
      (∀ b ∈ bindings, ∃ c ∈ candidates, c.1 = b.input ∧ b.output ∈ c.2) ∧
      ∀ c ∈ candidates, ∃ b ∈ bindings, b.input = c.1 ∧ b.output ≠ "" := by
  obtain ⟨hall, rfl⟩ := handleConfirm_eq.mp hconfirm
  refine ⟨?_, fun b hb => ?_, fun c hc => ?_⟩
  · rw [List.map_map]
    exact selections_nodup clicks ((initial_inputs candidates).nodup (ambiguous_lists h).1)
  · obtain ⟨e, he, rfl⟩ := List.mem_map.mp hb
    exact selections_shown hclicks initial_shown e he
  · obtain ⟨e, he, hname, hoption⟩ := hall c hc
    exact ⟨⟨e.2, e.1⟩, List.mem_map_of_mem he, hname, hoption⟩

/-- Confirmed bindings complete the stored ones exactly if there are none and every input that can
be bound is listed. -/
theorem completes_iff {clicks : List (String × String)}
    (hclicks : ∀ c ∈ clicks, Shown candidates c)
    (hconfirm : handleConfirm candidates (clicks.foldl (fun s c => select s c.1 c.2)
      (initialSelections candidates)) = some bindings) :
    Completes upstream downstream locked bindings ↔
      locked = [] ∧ ∀ n inp, OpenInput downstream locked n inp →
        (∃ o, Candidate upstream locked inp o) → n ∈ candidates.map Prod.fst := by
  obtain ⟨hn, hlists⟩ := ambiguous_lists h
  obtain ⟨honce, hlisted, hanswered⟩ := confirmed_listed h hclicks hconfirm
  constructor
  · rintro ⟨hkept, -, hbound⟩
    refine ⟨List.eq_nil_iff_forall_not_mem.mpr fun b hb => ?_, fun n inp hopen hcan => ?_⟩
    · obtain ⟨c, hc, hname, -⟩ := hlisted b (hkept b hb)
      obtain ⟨inp, hopen, -⟩ := hlists c hc
      exact hopen.2 (hname ▸ List.mem_map_of_mem hb)
    · obtain ⟨b, hb, rfl, -⟩ := hbound n inp hopen hcan
      obtain ⟨c, hc, hname, -⟩ := hlisted b hb
      exact hname ▸ List.mem_map_of_mem hc
  · rintro ⟨rfl, hall⟩
    refine ⟨nofun, honce, fun n inp hopen hcan => ?_⟩
    obtain ⟨c, hc, rfl⟩ := List.mem_map.mp (hall n inp hopen hcan)
    obtain ⟨b, hb, hname, -⟩ := hanswered c hc
    obtain ⟨c', hc', hname', hoption⟩ := hlisted b hb
    obtain rfl := List.inj_on_of_nodup_map hn hc' hc (hname'.trans hname)
    obtain ⟨inp', hopen', hfits⟩ := hlists c' hc
    obtain rfl := Option.some.inj (hopen.1.symm.trans hopen'.1)
    obtain ⟨out, ⟨hout, -⟩, hcompatible⟩ := hfits _ hoption
    exact ⟨b, hb, hname, out, hout, hcompatible⟩

end

/-- A flow of two nodes and an edge. -/
def drawnFlow : Flow where
  nodes := [⟨1, "source", "source", ∅⟩, ⟨2, "target", "target", ∅⟩]
  edges := [⟨1, 2, {}⟩]

/-- Confirming keeps what was resolved exactly if nothing was, and the dialogue lists all inputs
that can be bound; or if the user cannot confirm. -/
theorem confirmKeeps_iff (upstream downstream : BlockManifest) :
    ConfirmKeeps upstream downstream ↔ NothingLost upstream downstream := by
  constructor
  · intro h candidates ins outs locked hopen
    by_cases hnone : ∃ c ∈ candidates, ∀ option ∈ c.2, option = ""
    · exact .inl hnone
    · have hname : ∀ c ∈ candidates, ∃ option ∈ c.2, option ≠ "" := by
        intro c hc
        by_contra hall
        exact hnone ⟨c, hc, fun option ho => by_contra fun hne => hall ⟨option, ho, hne⟩⟩
      obtain ⟨clicks, bindings, hclicks, hconfirm⟩ := exists_confirm (ambiguous_lists hopen).1 hname
      let load : String → Option BlockManifest := fun n =>
        if n = "source" then some upstream else some downstream
      have hends : endManifests load 1 2 drawnFlow = some (upstream, downstream) := rfl
      have happly : resolveAndApply load 1 2 drawnFlow =
          (drawnFlow.setEdgeData 1 2 ⟨some locked, true⟩, .ambiguous) := by
        rw [resolveAndApply, hends]
        dsimp only
        rw [hopen]
      obtain ⟨stored, bindings', hstored, hbindings, hcompletes⟩ := h load 1 2 drawnFlow _ _ hends
        rfl happly (.mk hends hopen hclicks hconfirm)
      cases hstored
      cases hbindings
      exact .inr ((completes_iff hopen hclicks hconfirm).mp hcompletes)
  · intro h load source target f f₁ f₂ hends hedge happly hconfirms
    rw [resolveAndApply, hends] at happly
    dsimp only at happly
    cases hres : resolveConnection upstream downstream [] with
    | ok bindings =>
      rw [hres] at happly
      cases happly
    | invalid reason =>
      rw [hres] at happly
      cases happly
    | ambiguous candidates ins outs locked =>
      rw [hres] at happly
      obtain ⟨rfl, -⟩ := Prod.mk.inj happly
      obtain ⟨hends', hopen, hclicks, hconfirm⟩ := hconfirms
      cases hends.symm.trans hends'
      obtain ⟨rfl, rfl, rfl, rfl⟩ := ResolveOutcome.ambiguous.inj (hres.symm.trans hopen)
      have hstored := Flow.getEdgeData_set ⟨some locked, true⟩ hedge
      refine ⟨locked, _, hstored, Flow.getEdgeData_set _ (hstored ▸ rfl), ?_⟩
      refine (completes_iff hres hclicks hconfirm).mpr ((h _ _ _ _ hres).resolve_left ?_)
      rintro ⟨c, hc, hempty⟩
      obtain ⟨-, hlisted, hanswered⟩ := confirmed_listed hres hclicks hconfirm
      obtain ⟨b, hb, hname, hne⟩ := hanswered c hc
      obtain ⟨c', hc', hname', hoption⟩ := hlisted b hb
      obtain rfl := List.inj_on_of_nodup_map (ambiguous_lists hres).1 hc' hc (hname'.trans hname)
      exact hne (hempty _ hoption)

/-- Of three inputs the first is resolved, and the user is asked for the second. -/
def mixedOutputs : BlockManifest where
  id := "source"
  outputs := (((∅ : GoMap String OutputDeclaration).insert "b" { type := "file" }).insert "a"
    { type := "file" }).insert "table" { type := "json" }

def mixedInputs : BlockManifest where
  id := "target"
  inputs := ((∅ : GoMap String InputDeclaration).insert "x" { type := "file" }).insert "rows"
    { type := "json" }

/-- The binding of the first one is gone when the dialogue is confirmed. -/
theorem confirmKeeps_fails : ¬ConfirmKeeps mixedOutputs mixedInputs := by
  intro h
  let load : String → Option BlockManifest := fun n =>
    if n = "source" then some mixedOutputs else some mixedInputs
  have hopen : resolveConnection mixedOutputs mixedInputs [] = .ambiguous [("x", ["a", "b"])]
      [("rows", ""), ("x", "")] [("table", ""), ("a", ""), ("b", "")] [⟨"table", "rows"⟩] := by
    decide
  have hends : endManifests load 1 2 drawnFlow = some (mixedOutputs, mixedInputs) := rfl
  have happly : resolveAndApply load 1 2 drawnFlow =
      (drawnFlow.setEdgeData 1 2 ⟨some [⟨"table", "rows"⟩], true⟩, .ambiguous) := by
    rw [resolveAndApply, hends]
    dsimp only
    rw [hopen]
  have hconfirm : handleConfirm [("x", ["a", "b"])]
      (([] : List (String × String)).foldl (fun s c => select s c.1 c.2)
        (initialSelections [("x", ["a", "b"])])) = some [⟨"a", "x"⟩] := by decide
  obtain ⟨stored, bindings, hstored, hbindings, hcompletes⟩ := h load 1 2 drawnFlow _ _ hends
    rfl happly (.mk hends hopen (fun _ hc => absurd hc List.not_mem_nil) hconfirm)
  cases hstored
  cases hbindings
  exact absurd (hcompletes.kept ⟨"table", "rows"⟩ (List.mem_singleton_self _)) (by decide)

end Spade
