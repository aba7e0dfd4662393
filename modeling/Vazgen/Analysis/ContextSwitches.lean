import Vazgen.Analysis.CallCounts
import Vazgen.Analysis.NormalizedWeights
import Vazgen.Analysis.PartitionStatistics
import Mathlib.Tactic.Linarith

/-!
# Context switches of both sides

`PartitionStatistics` adds up the numbers of calls on the edges that cross the border of a partition.
Every call is stored twice, and `normalizeWeights` rescales the number of the copy among the in-edges
only: a call is counted once as it is, on the side of the caller, and once rescaled.

**`numOfContextSwitches_eq_iff`**: both sides report the same number exactly if both sums run into
the infinity, or none does and the calls that leave the secure side lose as much by rescaling as those
that enter it.
-/

namespace Vazgen

namespace WeightAssigningHelper

variable {F G V N R : Type}

/-! ## The edges of a weighted graph -/

section Kept

variable [DecidableEq F] {graph graph' : CallGraph F R}

theorem GraphKept.getFunctionNode (h : GraphKept graph graph') {f : F} {node : Node F R}
    (hnode : graph.getFunctionNode f = some node) :
    ∃ node', graph'.getFunctionNode f = some node' ∧ NodeKept node node' := by
  obtain ⟨nodes⟩ := graph
  obtain ⟨nodes'⟩ := graph'
  unfold GraphKept at h
  unfold CallGraph.getFunctionNode at hnode ⊢
  dsimp only at h hnode ⊢
  induction h with
  | nil => cases hnode
  | @cons first first' nodes nodes' hfirst _ ih =>
    rw [List.find?_cons] at hnode ⊢
    rw [hfirst.function]
    split at hnode
    · obtain rfl := Option.some.inj hnode
      exact ⟨first', rfl, hfirst⟩
    · exact ih hnode

theorem graphKept_addNodeFactors (w : F → WeightFactor R) {fs : List F} {s s' : State F R}
    (h : fs.foldlM (fun s f => addNodeFactor f (w f) s) s = some s') :
    GraphKept s.callGraph s'.callGraph := by
  induction fs generalizing s with
  | nil =>
    cases h
    exact .refl _
  | cons f fs ih =>
    obtain ⟨s₁, hs₁, h⟩ := Option.bind_eq_some_iff.1 h
    exact (graphKept_addNodeFactor hs₁).trans (ih h)

variable [Zero R] [One R] [IntCast R] {pdg : PDG F G V N} {loopInfoGetter : LoopInfoGetter F V}

theorem graphKept_assignCallNumWeights {s s' : State F R}
    (h : assignCallNumWeights pdg loopInfoGetter s = some s') :
    GraphKept s.callGraph s'.callGraph := by
  obtain ⟨-, s₁, rfl, rfl⟩ := assignCallNumWeights_eq_some h
  refine (graphKept_addInEdgeFactor .callNum _ (fun f w hw g => ?_) s).trans
    (graphKept_addOutEdgeCallNum _ _)
  obtain ⟨calls, -, rfl⟩ := Option.map_eq_some_iff.1 hw
  rfl

end Kept

/-! ## Where a call is stored -/

section Stored

variable [DecidableEq F]

/-- The call is the `k`-th one among those to its callee, that is, the `k`-th in-edge there. -/
def CallAt (calls : List (F × F)) (k : Nat) (call : F × F) : Prop :=
  (calls.filter fun c => c.2 = call.2)[k]? = some call

theorem exists_callAt {calls : List (F × F)} {call : F × F} (hcall : call ∈ calls) :
    ∃ k, CallAt calls k call :=
  List.mem_iff_getElem?.1 (List.mem_filter.2 ⟨hcall, decide_eq_true rfl⟩)

theorem CallAt.mem {calls : List (F × F)} {k : Nat} {call : F × F} (h : CallAt calls k call) :
    call ∈ calls := (List.mem_filter.1 (List.mem_of_getElem? h)).1

variable [Zero R] [One R] {graph graph' : CallGraph F R} {calls : List (F × F)}

/-- The in-edges of a function, for graphs of the same edges. -/
theorem getElem?_inEdges (h : graph.Represents calls) (hkept : GraphKept graph graph') {f : F}
    {node : Node F R} (hnode : graph'.getFunctionNode f = some node) (k : Nat) :
    (node.inEdges[k]?).map (fun edge => (edge.getSource, edge.getSink)) =
      (calls.filter fun c => c.2 = f)[k]? := by
  obtain ⟨hmem, rfl⟩ := CallGraph.getFunctionNode_eq_some hnode
  obtain ⟨node₀, hnode₀, hn⟩ := exists_left_of_forall₂ hkept hmem
  have hsame : node.inEdges.map (fun edge => (edge.getSource, edge.getSink)) =
      node₀.inEdges.map (fun edge => (edge.getSource, edge.getSink)) := by
    have hedges := hn.inEdges
    generalize node₀.inEdges = edges₀ at hedges
    generalize node.inEdges = edges at hedges
    induction hedges with
    | nil => rfl
    | cons hedge _ ih => rw [List.map_cons, List.map_cons, hedge.source, hedge.sink, ih]
  rw [← List.getElem?_map, hsame, h.inEdges node₀ hnode₀, List.map_map, hn.function]
  exact congrArg (·[k]?) (List.map_id' _)

theorem exists_inEdge (h : graph.Represents calls) (hkept : GraphKept graph graph') {k : Nat}
    {call : F × F} (hcall : CallAt calls k call) :
    ∃ node edge, graph'.getFunctionNode call.2 = some node ∧ node.inEdges[k]? = some edge ∧
      edge.getSource = call.1 := by
  obtain ⟨node₀, hnode₀, hf⟩ := List.mem_map.1 (h.ends call hcall.mem).2
  obtain ⟨node, hnode, -⟩ := hkept.getFunctionNode
    (CallGraph.getFunctionNode_eq_of_nodup h.nodup hnode₀)
  rw [hf] at hnode
  have hedge := (getElem?_inEdges h hkept hnode k).trans hcall
  obtain ⟨edge, hedge, hends⟩ := Option.map_eq_some_iff.1 hedge
  exact ⟨node, edge, hnode, hedge, congrArg Prod.fst hends⟩

end Stored

/-! ## CALL_NUM on the edges -/

section CallNum

variable [DecidableEq F]

/-- The number of calls that is stored with both copies of an edge; 0 if the callee has no graph. -/
def rawCalls [IntCast R] (loopInfoGetter : LoopInfoGetter F V) (pdg : PDG F G V N)
    (call : F × F) : R :=
  (((numCalls loopInfoGetter pdg call.2 call.1).getD 0 : Nat) : Int)

theorem isSome_collectFunctionCallSiteData (pdg : PDG F G V N) (loopInfoGetter : LoopInfoGetter F V)
    (f : F) : (collectFunctionCallSiteData pdg loopInfoGetter f).isSome = pdg.hasFunctionPDG f := by
  unfold collectFunctionCallSiteData
  split
  · next h => exact h.symm
  · next h => exact (Bool.eq_false_of_not_eq_true h).symm

variable [Ring R] {graph : CallGraph F R} {calls : List (F × F)} {s s' : State F R}
  {pdg : PDG F G V N} {loopInfoGetter : LoopInfoGetter F V}

/-- Before the loops for CALL_NUM its value is 0. -/
theorem get?_callNum_initial (h : graph.Represents calls) {k : Nat} {call : F × F}
    (hcall : CallAt calls k call) :
    (WeightRef.inEdge call.2 k).get? graph .callNum = some 0 := by
  obtain ⟨node, hnode, hf⟩ := List.mem_map.1 (h.ends call hcall.mem).2
  have hget := hf ▸ CallGraph.getFunctionNode_eq_of_nodup h.nodup hnode
  unfold WeightRef.get?
  dsimp only
  rw [hget, Option.bind_some, h.inEdges node hnode, List.getElem?_map, hf, hcall]
  rfl

/-- The first loop stores the number with the in-edges. -/
theorem get?_assignCallNumWeights (h : graph.Represents calls)
    (hkept : GraphKept graph s.callGraph) (hfactor : FactorKept .callNum graph s.callGraph)
    (hassign : assignCallNumWeights pdg loopInfoGetter s = some s') {k : Nat} {call : F × F}
    (hcall : CallAt calls k call) :
    (WeightRef.inEdge call.2 k).get? s'.callGraph .callNum =
      some (rawCalls loopInfoGetter pdg call) := by
  obtain ⟨node, edge, hnode, hedge, hsource⟩ := exists_inEdge h hkept hcall
  have hf := (CallGraph.getFunctionNode_eq_some hnode).2
  have hzero : (edge.getWeight.getFactor .callNum).getValue = 0 := by
    have hinitial := get?_callNum_initial h hcall
    rw [WeightRef.get?_eq, ← hfactor, WeightRef.factor?, hnode, Option.bind_some, hedge] at hinitial
    exact Option.some.inj hinitial
  obtain ⟨-, s₁, rfl, rfl⟩ := assignCallNumWeights_eq_some hassign
  rw [WeightRef.get?_eq, factorKept_addOutEdgeCallNum]
  simp only [WeightRef.factor?, getFunctionNode_addInEdgeFactor, hnode, Option.map_some,
    Option.bind_some, addFactorOf, hf]
  unfold rawCalls numCalls
  cases hdata : collectFunctionCallSiteData pdg loopInfoGetter call.2 with
  | none =>
    simp only [Option.map_none, hedge, Option.map_some, hzero]
    exact congrArg some Int.cast_zero.symm
  | some data =>
    simp only [Option.map_some, addFactorToInEdges, List.getElem?_map, hedge, Option.getD_some]
    rw [← hsource]
    simp [Edge.addFactor, Weight.addFactor, callNumFactor, WeightFactor.new, WeightFactor.setValue]

/-- The pointers that the first loop collects, if there were none before. -/
theorem callNum_refs (hassign : assignCallNumWeights pdg loopInfoGetter s = some s')
    (hrefs : s.factorWeights .callNum = []) :
    s'.factorWeights .callNum = s.callGraph.functionNodes.flatMap fun node =>
      if pdg.hasFunctionPDG node.getFunction = true then
        (List.range node.inEdges.length).map (.inEdge node.getFunction)
      else [] := by
  obtain ⟨-, s₁, rfl, rfl⟩ := assignCallNumWeights_eq_some hassign
  unfold addInEdgeFactor State.collect
  dsimp only
  rw [if_pos rfl, hrefs, List.nil_append]
  simp only [Option.isSome_map, isSome_collectFunctionCallSiteData]

/-- They point to the in-edges of the functions that have graphs. -/
theorem mem_callNum_refs (h : graph.Represents calls) (hkept : GraphKept graph s.callGraph)
    (hassign : assignCallNumWeights pdg loopInfoGetter s = some s')
    (hrefs : s.factorWeights .callNum = []) (ref : WeightRef F) :
    ref ∈ s'.factorWeights .callNum ↔
      ∃ k call, CallAt calls k call ∧ pdg.hasFunctionPDG call.2 = true ∧
        ref = .inEdge call.2 k := by
  have hnodup : (s.callGraph.functionNodes.map (·.getFunction)).Nodup := hkept.functions ▸ h.nodup
  rw [callNum_refs hassign hrefs, List.mem_flatMap]
  constructor
  · rintro ⟨node, hnode, hmem⟩
    split at hmem
    · next hpdg =>
      obtain ⟨k, hk, rfl⟩ := List.mem_map.1 hmem
      have hget := CallGraph.getFunctionNode_eq_of_nodup hnodup hnode
      have hcall := getElem?_inEdges h hkept hget k
      rw [List.getElem?_eq_getElem (List.mem_range.1 hk), Option.map_some] at hcall
      have hsink := of_decide_eq_true (List.mem_filter.1 (List.mem_of_getElem? hcall.symm)).2
      refine ⟨k, _, ?_, hsink.symm ▸ hpdg, by rw [hsink]⟩
      unfold CallAt
      rw [hsink]
      exact hcall.symm
    · cases hmem
  · rintro ⟨k, call, hcall, hpdg, rfl⟩
    obtain ⟨node, edge, hnode, hedge, -⟩ := exists_inEdge h hkept hcall
    obtain ⟨hmem, hf⟩ := CallGraph.getFunctionNode_eq_some hnode
    refine ⟨node, hmem, ?_⟩
    rw [if_pos (hf ▸ hpdg), hf]
    exact List.mem_map_of_mem (List.mem_range.2 (List.getElem?_eq_some_iff.1 hedge).1)

theorem nodup_callNum_refs (h : graph.Represents calls) (hkept : GraphKept graph s.callGraph)
    (hassign : assignCallNumWeights pdg loopInfoGetter s = some s')
    (hrefs : s.factorWeights .callNum = []) : (s'.factorWeights .callNum).Nodup := by
  have hnodup : (s.callGraph.functionNodes.map (·.getFunction)).Nodup := hkept.functions ▸ h.nodup
  rw [callNum_refs hassign hrefs, List.nodup_flatMap]
  constructor
  · intro node _
    split
    · exact List.nodup_range.map fun i j hij => (WeightRef.inEdge.inj hij).2
    · exact List.nodup_nil
  · refine (List.pairwise_map.1 hnodup).imp fun {node node'} hne => ?_
    intro ref href href'
    dsimp only at href href'
    split at href
    · split at href'
      · obtain ⟨i, -, rfl⟩ := List.mem_map.1 href
        obtain ⟨j, -, heq⟩ := List.mem_map.1 href'
        exact hne (WeightRef.inEdge.inj heq).1.symm
      · cases href'
    · cases href

/-- The second loop stores the number with the out-edges. -/
theorem outEdges_assignCallNumWeights (h : graph.Represents calls)
    (houtEdges : OutEdgesKept graph s.callGraph)
    (hassign : assignCallNumWeights pdg loopInfoGetter s = some s') {f : F} {node : Node F R}
    (hnode : s'.callGraph.getFunctionNode f = some node) :
    node.outEdges.map (fun edge => (edge.getSink, PartitionStatistics.callNum edge)) =
      (calls.filter fun c => c.1 = f).map fun c => (c.2, rawCalls loopInfoGetter pdg c) := by
  obtain ⟨-, s₁, rfl, rfl⟩ := assignCallNumWeights_eq_some hassign
  dsimp only at hnode
  rw [getFunctionNode_addOutEdgeCallNum] at hnode
  obtain ⟨node₁, hnode₁, rfl⟩ := Option.map_eq_some_iff.1 hnode
  have hf := (CallGraph.getFunctionNode_eq_some hnode₁).2
  -- the loop finds the edges of the initial graph
  obtain ⟨node₀, hnode₀, hedges⟩ :=
    (houtEdges.trans (outEdgesKept_addInEdgeFactor _ _ _)).exists_node hnode₁
  obtain ⟨hmem₀, hf₀⟩ := CallGraph.getFunctionNode_eq_some hnode₀
  rw [h.outEdges node₀ hmem₀, hf₀] at hedges
  unfold addCallNumToOutEdges
  dsimp only
  rw [← hedges, List.map_map, List.map_map]
  refine List.map_congr_left fun c hc => ?_
  have hsource : c.1 = f := of_decide_eq_true (List.mem_filter.1 hc).2
  simp only [Function.comp_apply, CallGraph.newEdge, hf]
  unfold rawCalls numCalls
  rw [hsource]
  cases collectFunctionCallSiteData pdg loopInfoGetter c.2 with
  | none => simp [PartitionStatistics.callNum, Weight.new, WeightFactor.new]
  | some data =>
    simp only [Option.bind_some, Option.map_some, Option.getD_some]
    cases data f with
    | none => simp [PartitionStatistics.callNum, Weight.new, WeightFactor.new]
    | some count =>
      simp [PartitionStatistics.callNum, Edge.addFactor, Weight.addFactor, callNumFactor,
        WeightFactor.new, WeightFactor.setValue]

end CallNum

section Assign

variable [DecidableEq F] [Field R] [LinearOrder R] {M : Module F G V} {pdg : PDG F G V N}
  {loopInfoGetter : LoopInfoGetter F V} {order : IterationOrder F} {secure : Partition F G}
  {graph graph' : CallGraph F R} {calls : List (F × F)}

/-- The calls whose numbers are normalised: those of functions that have graphs. -/
def knownCalls (pdg : PDG F G V N) (calls : List (F × F)) : List (F × F) :=
  calls.filter fun call => pdg.hasFunctionPDG call.2

variable (R) in
/-- The number that is stored with the in-edge of a call in the end. -/
def normalizedCalls (loopInfoGetter : LoopInfoGetter F V) (pdg : PDG F G V N)
    (calls : List (F × F)) (call : F × F) : R :=
  if pdg.hasFunctionPDG call.2 then
    Rescale.rescaleIn ((knownCalls pdg calls).map (rawCalls loopInfoGetter pdg))
      (rawCalls loopInfoGetter pdg call)
  else rawCalls loopInfoGetter pdg call

/-- The state before the weights are normalised: the number of every call stands with both copies of
its edge, and the collected pointers are those to the in-edges of functions that have graphs. -/
structure CallNumState (loopInfoGetter : LoopInfoGetter F V) (pdg : PDG F G V N)
    (calls : List (F × F)) (graph : CallGraph F R) (s : State F R) : Prop where
  kept : GraphKept graph s.callGraph
  get? : ∀ k call, CallAt calls k call → (WeightRef.inEdge call.2 k).get? s.callGraph .callNum =
    some (rawCalls loopInfoGetter pdg call)
  nodup : (s.factorWeights .callNum).Nodup
  refs : ∀ ref, ref ∈ s.factorWeights .callNum ↔ ∃ k call, CallAt calls k call ∧
    pdg.hasFunctionPDG call.2 = true ∧ ref = .inEdge call.2 k
  outEdges : ∀ f node, s.callGraph.getFunctionNode f = some node →
    node.outEdges.map (fun edge => (edge.getSink, PartitionStatistics.callNum edge)) =
      (calls.filter fun c => c.1 = f).map fun c => (c.2, rawCalls loopInfoGetter pdg c)

theorem exists_callNumState (h : graph.Represents calls)
    (hassign : assignWeights M pdg loopInfoGetter order secure graph = some graph') :
    ∃ s : State F R, graph' = normalizeWeights s ∧
      CallNumState loopInfoGetter pdg calls graph s := by
  obtain ⟨s₁, s₂, s₃, s₄, h₁, h₂, h₃, h₄, rfl⟩ := assignWeights_eq_some hassign
  have hsensitive : Factor.callNum ≠ .sensitive := by decide
  have hrelated : Factor.callNum ≠ .sensitiveRelated := by decide
  have hsize : Factor.callNum ≠ .size := by decide
  have hkept : GraphKept graph s₃.callGraph := ((graphKept_addNodeFactors _ h₁).trans
    (graphKept_addNodeFactors _ h₂)).trans (graphKept_addNodeFactors _ h₃)
  have hstate : StateKept .callNum { callGraph := graph } s₃ :=
    ((stateKept_addNodeFactors hsensitive _ (fun f => rfl) h₁).trans
      (stateKept_addNodeFactors hrelated _ (fun f => rfl) h₂)).trans
      (stateKept_addNodeFactors hsize _ (fun f => rfl) h₃)
  have houtEdges : OutEdgesKept graph s₃.callGraph := ((outEdgesKept_addNodeFactors h₁).trans
    (outEdgesKept_addNodeFactors h₂)).trans (outEdgesKept_addNodeFactors h₃)
  have hrefs : s₃.factorWeights .callNum = [] := hstate.factorWeights
  have hlast : StateKept .callNum s₄ (assignRetValueWeights M (assignArgWeights M s₄)) :=
    stateKept_assignArgAndRetValueWeights M (by decide) (by decide) (by decide) s₄
  refine ⟨_, rfl, ?_, fun k call hcall => ?_, ?_, fun ref => ?_, fun f node hnode => ?_⟩
  · exact ((hkept.trans (graphKept_assignCallNumWeights h₄)).trans
      (graphKept_assignArgWeights M s₄)).trans (graphKept_assignRetValueWeights M _)
  · rw [hlast.factor?.get?_eq]
    exact get?_assignCallNumWeights h hkept hstate.factor? h₄ hcall
  · rw [hlast.factorWeights]
    exact nodup_callNum_refs h hkept h₄ hrefs
  · rw [hlast.factorWeights]
    exact mem_callNum_refs h hkept h₄ hrefs ref
  · obtain ⟨node₄, hnode₄, hedges⟩ :=
      (outEdgesKept_assignArgAndRetValueWeights M s₄).exists_node hnode
    rw [← hedges]
    exact outEdges_assignCallNumWeights h houtEdges h₄ hnode₄

namespace CallNumState

variable {s : State F R}

omit [LinearOrder R] in
/-- The values that are normalised are the numbers of the known calls. -/
theorem mem_values (hs : CallNumState loopInfoGetter pdg calls graph s) (x : R) :
    x ∈ (s.factorWeights .callNum).filterMap (WeightRef.get? s.callGraph .callNum) ↔
      x ∈ (knownCalls pdg calls).map (rawCalls loopInfoGetter pdg) := by
  rw [List.mem_filterMap, List.mem_map]
  constructor
  · rintro ⟨ref, href, hx⟩
    obtain ⟨k, call, hcall, hpdg, rfl⟩ := (hs.refs ref).1 href
    rw [hs.get? k call hcall, Option.some.injEq] at hx
    exact ⟨call, List.mem_filter.2 ⟨hcall.mem, hpdg⟩, hx⟩
  · rintro ⟨call, hmem, hx⟩
    obtain ⟨hmem, hpdg⟩ := List.mem_filter.1 hmem
    obtain ⟨k, hcall⟩ := exists_callAt hmem
    exact ⟨_, (hs.refs _).2 ⟨k, call, hcall, hpdg, rfl⟩, by rw [hs.get? k call hcall, hx]⟩

/-- What is read in the end through the pointer to the in-edge of a call. -/
theorem get?_normalizeWeights (hs : CallNumState loopInfoGetter pdg calls graph s) {k : Nat}
    {call : F × F} (hcall : CallAt calls k call) :
    (WeightRef.inEdge call.2 k).get? (normalizeWeights s) .callNum =
      some (normalizedCalls R loopInfoGetter pdg calls call) := by
  obtain ⟨hmem, hother⟩ := WeightAssigningHelper.get?_normalizeWeights s (by decide) hs.nodup
    (.inEdge call.2 k)
  unfold normalizedCalls
  split
  · next hpdg =>
    rw [hmem ((hs.refs _).2 ⟨k, call, hcall, hpdg, rfl⟩), hs.get? k call hcall, Option.map_some,
      Rescale.rescaleIn_congr hs.mem_values]
  · next hpdg =>
    rw [hother fun href => ?_, hs.get? k call hcall]
    obtain ⟨k', call', -, hpdg', heq⟩ := (hs.refs _).1 href
    exact hpdg ((WeightRef.inEdge.inj heq).1 ▸ hpdg')

theorem inEdges_normalizeWeights (h : graph.Represents calls)
    (hs : CallNumState loopInfoGetter pdg calls graph s) {f : F} {node : Node F R}
    (hnode : (normalizeWeights s).getFunctionNode f = some node) :
    node.inEdges.map (fun edge => (edge.getSource, PartitionStatistics.callNum edge)) =
      (calls.filter fun c => c.2 = f).map fun c =>
        (c.1, normalizedCalls R loopInfoGetter pdg calls c) := by
  have hends := getElem?_inEdges h (hs.kept.trans (graphKept_normalizeWeights s)) hnode
  refine List.ext_getElem? fun k => ?_
  rw [List.getElem?_map, List.getElem?_map, ← hends k, Option.map_map]
  refine Option.map_congr fun edge hedge => ?_
  have hk := hends k
  rw [hedge, Option.map_some] at hk
  have hsink : edge.getSink = f :=
    of_decide_eq_true (List.mem_filter.1 (List.mem_of_getElem? hk.symm)).2
  have hcall : CallAt calls k (edge.getSource, edge.getSink) := by
    unfold CallAt
    rw [hsink] at hk ⊢
    exact hk.symm
  have hvalue := hs.get?_normalizeWeights hcall
  unfold WeightRef.get? at hvalue
  dsimp only at hvalue
  rw [hsink, hnode, Option.bind_some, hedge, ← hsink] at hvalue
  exact Prod.ext rfl (Option.some.inj hvalue)

theorem outEdges_normalizeWeights (hs : CallNumState loopInfoGetter pdg calls graph s) {f : F}
    {node : Node F R} (hnode : (normalizeWeights s).getFunctionNode f = some node) :
    node.outEdges.map (fun edge => (edge.getSink, PartitionStatistics.callNum edge)) =
      (calls.filter fun c => c.1 = f).map fun c => (c.2, rawCalls loopInfoGetter pdg c) := by
  obtain ⟨node₁, hnode₁, hedges⟩ := (outEdgesKept_normalizeWeights s).exists_node hnode
  rw [← hedges]
  exact hs.outEdges f node₁ hnode₁

end CallNumState

/-- **The numbers of calls in a weighted graph**: among the in-edges they are normalised. -/
theorem callNum_assignWeights (h : graph.Represents calls)
    (hassign : assignWeights M pdg loopInfoGetter order secure graph = some graph') {f : F}
    {node : Node F R} (hnode : graph'.getFunctionNode f = some node) :
    node.inEdges.map (fun edge => (edge.getSource, PartitionStatistics.callNum edge)) =
      (calls.filter fun c => c.2 = f).map (fun c =>
        (c.1, normalizedCalls R loopInfoGetter pdg calls c)) ∧
    node.outEdges.map (fun edge => (edge.getSink, PartitionStatistics.callNum edge)) =
      (calls.filter fun c => c.1 = f).map fun c => (c.2, rawCalls loopInfoGetter pdg c) := by
  obtain ⟨s, rfl, hs⟩ := exists_callNumState h hassign
  exact ⟨hs.inEdges_normalizeWeights h hnode, hs.outEdges_normalizeWeights hnode⟩

end Assign

theorem graphKept_assignWeights [DecidableEq F] [Field R] [LinearOrder R] {M : Module F G V}
    {pdg : PDG F G V N} {loopInfoGetter : LoopInfoGetter F V} {order : IterationOrder F}
    {secure : Partition F G} {graph graph' : CallGraph F R} {calls : List (F × F)}
    (h : graph.Represents calls)
    (hassign : assignWeights M pdg loopInfoGetter order secure graph = some graph') :
    GraphKept graph graph' := by
  obtain ⟨s, rfl, hs⟩ := exists_callNumState h hassign
  exact hs.kept.trans (graphKept_normalizeWeights s)

end WeightAssigningHelper

namespace PartitionStatistics

open WeightAssigningHelper

variable {F G V N R : Type}

/-! ## Sums over the border -/

/-- Lists of pairs that are equal have equal second components, wherever the first ones satisfy `p`. -/
theorem map_filter_of_map_eq {α β γ δ : Type} {l : List α} {l' : List β} {k : α → γ} {v : α → δ}
    {k' : β → γ} {v' : β → δ} (p : γ → Bool)
    (h : l.map (fun a => (k a, v a)) = l'.map fun b => (k' b, v' b)) :
    (l.filter fun a => p (k a)).map v = (l'.filter fun b => p (k' b)).map v' := by
  have hpairs := congrArg (fun pairs => (pairs.filter fun pair => p pair.1).map (·.2)) h
  simpa [List.filter_map, Function.comp_def] using hpairs

section Sums

variable [AddCommMonoid R] {α β : Type}

theorem sum_filter_or {p q : α → Bool} (w : α → R) {l : List α} (hpq : ∀ a, p a = true → q a = false) :
    ((l.filter fun a => p a || q a).map w).sum =
      ((l.filter p).map w).sum + ((l.filter q).map w).sum := by
  induction l with
  | nil => simp
  | cons a l ih =>
    simp only [List.filter_cons]
    by_cases hp : p a = true
    · rw [hp, hpq a hp]
      simp [ih, add_assoc]
    · rw [Bool.eq_false_of_not_eq_true hp]
      by_cases hq : q a = true
      · rw [hq]
        simp [ih, add_left_comm]
      · rw [Bool.eq_false_of_not_eq_true hq]
        simp [ih]

/-- Summing up key by key, over distinct keys. -/
theorem sum_filter_key [DecidableEq β] (key : α → β) (w : α → R) (l : List α) {fs : List β}
    (hnodup : fs.Nodup) :
    (fs.map fun f => ((l.filter fun a => key a = f).map w).sum).sum =
      ((l.filter fun a => key a ∈ fs).map w).sum := by
  induction fs with
  | nil => simp
  | cons f fs ih =>
    obtain ⟨hf, hnodup⟩ := List.nodup_cons.1 hnodup
    rw [List.map_cons, List.sum_cons, ih hnodup, ← sum_filter_or w fun a ha => ?_]
    · simp only [List.mem_cons, Bool.decide_or]
    · rw [of_decide_eq_true ha]
      exact decide_eq_false hf

/-- The same for those of the list that satisfy `p`. -/
theorem sum_filter_key_of [DecidableEq β] (key : α → β) (p : α → Bool) (w : α → R) (l : List α)
    {fs : List β} (hnodup : fs.Nodup) :
    (fs.map fun f => (((l.filter fun a => key a = f).filter p).map w).sum).sum =
      ((l.filter fun a => p a && decide (key a ∈ fs)).map w).sum := by
  simp only [fun f => List.filter_comm p (fun a => decide (key a = f)) l]
  rw [sum_filter_key key w _ hnodup, List.filter_filter]
  simp only [Bool.and_comm]

end Sums

/-- The calls that lead into a partition. -/
def entering [DecidableEq F] (partition : Partition F G) (calls : List (F × F)) : List (F × F) :=
  calls.filter fun call => call.1 ∉ partition.partition ∧ call.2 ∈ partition.partition

/-- The calls that lead out of it. -/
def leaving [DecidableEq F] (partition : Partition F G) (calls : List (F × F)) : List (F × F) :=
  calls.filter fun call => call.1 ∈ partition.partition ∧ call.2 ∉ partition.partition

/-- The numbers of calls on the border edges, function by function in the order of the report. -/
def borderNumbers [DecidableEq F] [Ring R] [LinearOrder R] (graph : CallGraph F R)
    (partition : Partition F G) (order : IterationOrder F) : List (List R) :=
  (order.list partition.partition).map fun f => (borderEdges graph partition f).map callNum

/-- One of these numbers is the infinity, or a running total of those of a function, or of the totals
of the functions. -/
def MeetsInfinity [DecidableEq F] [Ring R] [LinearOrder R] (graph : CallGraph F R)
    (partition : Partition F G) (order : IterationOrder F) : Prop :=
  Saturation.NestedMeets NumberType.posInf (borderNumbers graph partition order)

section Border

variable [DecidableEq F] [Field R] [LinearOrder R] {M : Module F G V} {pdg : PDG F G V N}
  {loopInfoGetter : LoopInfoGetter F V} {order : IterationOrder F} {secure : Partition F G}
  {graph graph' : CallGraph F R} {calls : List (F × F)}

theorem callNum_borderEdges (h : graph.Represents calls)
    (hassign : assignWeights M pdg loopInfoGetter order secure graph = some graph')
    (partition : Partition F G) (f : F) :
    (borderEdges graph' partition f).map callNum =
      ((calls.filter fun c => c.2 = f).filter fun c => c.1 ∉ partition.partition).map
        (normalizedCalls R loopInfoGetter pdg calls) ++
      ((calls.filter fun c => c.1 = f).filter fun c => c.2 ∉ partition.partition).map
        (rawCalls loopInfoGetter pdg) := by
  unfold borderEdges
  cases hnode : graph'.getFunctionNode f with
  | none =>
    have hfree : f ∉ graph.functionNodes.map (·.getFunction) := by
      rw [← (graphKept_assignWeights h hassign).functions]
      intro hf
      have hsome := CallGraph.hasFunctionNode_iff.2 (List.mem_map.1 hf)
      rw [CallGraph.hasFunctionNode, hnode] at hsome
      cases hsome
    have hin : calls.filter (fun c => c.2 = f) = [] := List.filter_eq_nil_iff.2 fun c hc hf =>
      hfree (of_decide_eq_true hf ▸ (h.ends c hc).2)
    have hout : calls.filter (fun c => c.1 = f) = [] := List.filter_eq_nil_iff.2 fun c hc hf =>
      hfree (of_decide_eq_true hf ▸ (h.ends c hc).1)
    rw [hin, hout]
    rfl
  | some node =>
    obtain ⟨hin, hout⟩ := callNum_assignWeights h hassign hnode
    dsimp only
    rw [List.map_append]
    exact congrArg₂ _ (map_filter_of_map_eq (fun g => g ∉ partition.partition) hin)
      (map_filter_of_map_eq (fun g => g ∉ partition.partition) hout)

/-- What the border numbers of a partition add up to. -/
theorem sum_borderNumbers (h : graph.Represents calls)
    (hassign : assignWeights M pdg loopInfoGetter order secure graph = some graph')
    (partition : Partition F G) (order' : IterationOrder F) :
    ((borderNumbers graph' partition order').map List.sum).sum =
      ((entering partition calls).map (normalizedCalls R loopInfoGetter pdg calls)).sum +
        ((leaving partition calls).map (rawCalls loopInfoGetter pdg)).sum := by
  have hmem := order'.mem partition.partition
  have hnodup := order'.nodup partition.partition
  have hentering : ((order'.list partition.partition).map fun f => (((calls.filter fun c =>
        c.2 = f).filter fun c => c.1 ∉ partition.partition).map
          (normalizedCalls R loopInfoGetter pdg calls)).sum).sum =
      ((entering partition calls).map (normalizedCalls R loopInfoGetter pdg calls)).sum := by
    rw [sum_filter_key_of _ _ _ _ hnodup]
    refine congrArg List.sum (congrArg _ (List.filter_congr fun c _ => ?_))
    simp [hmem]
  have hleaving : ((order'.list partition.partition).map fun f => (((calls.filter fun c =>
        c.1 = f).filter fun c => c.2 ∉ partition.partition).map
          (rawCalls (R := R) loopInfoGetter pdg)).sum).sum =
      ((leaving partition calls).map (rawCalls loopInfoGetter pdg)).sum := by
    rw [sum_filter_key_of _ _ _ _ hnodup]
    refine congrArg List.sum (congrArg _ (List.filter_congr fun c _ => ?_))
    simp [hmem, Bool.and_comm]
  unfold borderNumbers
  rw [List.map_map, ← hentering, ← hleaving, ← List.sum_map_add]
  simp only [Function.comp_def, callNum_borderEdges h hassign, List.sum_append]

end Border

section Nonneg

variable [DecidableEq F] [Field R] [LinearOrder R] [IsStrictOrderedRing R]
  {loopInfoGetter : LoopInfoGetter F V} {pdg : PDG F G V N}

theorem rawCalls_nonneg (call : F × F) : (0 : R) ≤ rawCalls loopInfoGetter pdg call := by
  unfold rawCalls
  exact_mod_cast Nat.cast_nonneg _

theorem normalizedCalls_nonneg {calls : List (F × F)} {call : F × F} (hcall : call ∈ calls) :
    0 ≤ normalizedCalls R loopInfoGetter pdg calls call := by
  unfold normalizedCalls
  split
  · next hpdg =>
    have hmem : call ∈ knownCalls pdg calls := List.mem_filter.2 ⟨hcall, hpdg⟩
    exact Rescale.rescaleIn_nonneg (List.mem_map_of_mem hmem)
      (List.forall_mem_map.2 fun c _ => rawCalls_nonneg c)
  · exact rawCalls_nonneg call

variable {M : Module F G V} {order : IterationOrder F} {secure : Partition F G}
  {graph graph' : CallGraph F R} {calls : List (F × F)}

/-- The sum of the report sticks at the infinity. -/
theorem numOfContextSwitches_eq (h : graph.Represents calls)
    (hassign : assignWeights M pdg loopInfoGetter order secure graph = some graph')
    (partition : Partition F G) (order' : IterationOrder F) :
    numOfContextSwitches graph' partition order' =
      Saturation.nestedSum NumberType.posInf (borderNumbers graph' partition order') := by
  have hnonneg : ∀ numbers ∈ borderNumbers graph' partition order', ∀ x ∈ numbers, (0 : R) ≤ x := by
    refine List.forall_mem_map.2 fun f _ x hx => ?_
    rw [callNum_borderEdges h hassign, List.mem_append, List.mem_map, List.mem_map] at hx
    rcases hx with ⟨c, hc, rfl⟩ | ⟨c, -, rfl⟩
    · exact normalizedCalls_nonneg (List.mem_filter.1 (List.mem_filter.1 hc).1).1
    · exact rawCalls_nonneg c
  rw [← NumberType.foldl_foldl_safeSum hnonneg, borderNumbers, List.foldl_map]
  unfold numOfContextSwitches getCtxSwitchesInFunction
  simp only [List.foldl_map]

end Nonneg

/-! ## Top theorem -/

section Top

variable [DecidableEq F] [Field R] [LinearOrder R] [IsStrictOrderedRing R]

variable (R) in
/-- What a call loses by normalisation. -/
def lossOf (loopInfoGetter : LoopInfoGetter F V) (pdg : PDG F G V N) (calls : List (F × F))
    (call : F × F) : R :=
  rawCalls loopInfoGetter pdg call - normalizedCalls R loopInfoGetter pdg calls call

omit [IsStrictOrderedRing R] in
theorem sum_rawCalls (loopInfoGetter : LoopInfoGetter F V) (pdg : PDG F G V N)
    (calls l : List (F × F)) :
    (l.map (rawCalls loopInfoGetter pdg)).sum = (l.map (lossOf R loopInfoGetter pdg calls)).sum +
      (l.map (normalizedCalls R loopInfoGetter pdg calls)).sum := by
  rw [← List.sum_map_add]
  simp only [lossOf, sub_add_cancel]

omit [IsStrictOrderedRing R] in
/-- The order of the calls does not matter. -/
theorem normalizedCalls_perm (loopInfoGetter : LoopInfoGetter F V) (pdg : PDG F G V N)
    {calls calls' : List (F × F)} (hperm : calls.Perm calls') :
    normalizedCalls R loopInfoGetter pdg calls = normalizedCalls R loopInfoGetter pdg calls' := by
  funext call
  unfold normalizedCalls knownCalls
  rw [Rescale.rescaleIn_congr fun x => ((hperm.filter _).map _).mem_iff]

omit [IsStrictOrderedRing R] in
theorem sum_lossOf_perm (loopInfoGetter : LoopInfoGetter F V) (pdg : PDG F G V N)
    {calls calls' : List (F × F)} (hperm : calls.Perm calls') (p : F × F → Bool) :
    ((calls'.filter p).map (lossOf R loopInfoGetter pdg calls')).sum =
      ((calls.filter p).map (lossOf R loopInfoGetter pdg calls)).sum := by
  have hloss : lossOf R loopInfoGetter pdg calls' = lossOf R loopInfoGetter pdg calls := by
    unfold lossOf
    rw [normalizedCalls_perm loopInfoGetter pdg hperm]
  rw [hloss]
  exact ((hperm.symm.filter p).map _).sum_eq

omit [Field R] [LinearOrder R] [IsStrictOrderedRing R] in
/-- What enters one of two complementary partitions leaves the other. -/
theorem entering_eq_leaving {llvmGraph : LLVMCallGraph F} {P Q : Partition F G}
    (hcomplement : ∀ f, llvmGraph.HasFunction f → (f ∈ Q.partition ↔ f ∉ P.partition))
    {calls : List (F × F)} (hcalls : ∀ f g, (f, g) ∈ calls ↔ llvmGraph.Records f g) :
    entering Q calls = leaving P calls ∧ leaving Q calls = entering P calls := by
  have hends : ∀ c ∈ calls, (c.1 ∈ Q.partition ↔ c.1 ∉ P.partition) ∧
      (c.2 ∈ Q.partition ↔ c.2 ∉ P.partition) := by
    intro c hc
    obtain ⟨node, hnode, hcaller, hcallee⟩ := (hcalls c.1 c.2).1 hc
    exact ⟨hcomplement c.1 ⟨node, hnode, .inl hcaller⟩,
      hcomplement c.2 ⟨node, hnode, .inr ⟨c.1, hcaller, hcallee⟩⟩⟩
  constructor
  · refine List.filter_congr fun c hc => ?_
    obtain ⟨hcaller, hcallee⟩ := hends c hc
    simp [hcaller, hcallee]
  · refine List.filter_congr fun c hc => ?_
    obtain ⟨hcaller, hcallee⟩ := hends c hc
    simp [hcaller, hcallee]

/-- **When both sides report the same number of context switches.**  `calls` lists the calls of the
graph, whose weights were assigned for a partition `weighted`; the reported partitions are
complementary on its functions. -/
theorem numOfContextSwitches_eq_iff {M : Module F G V} {pdg : PDG F G V N}
    {loopInfoGetter : LoopInfoGetter F V} {order : IterationOrder F}
    {weighted secure insecure : Partition F G} {llvmGraph : LLVMCallGraph F} {graph' : CallGraph F R}
    (hassign : assignWeights M pdg loopInfoGetter order weighted (CallGraph.create llvmGraph) =
      some graph')
    (hcomplement : ∀ f, llvmGraph.HasFunction f → (f ∈ insecure.partition ↔ f ∉ secure.partition))
    {calls : List (F × F)} (hnodup : calls.Nodup)
    (hcalls : ∀ f g, (f, g) ∈ calls ↔ llvmGraph.Records f g) (order' : IterationOrder F) :
    numOfContextSwitches graph' secure order' = numOfContextSwitches graph' insecure order' ↔
      (MeetsInfinity graph' secure order' ∧ MeetsInfinity graph' insecure order') ∨
      (¬ MeetsInfinity graph' secure order' ∧ ¬ MeetsInfinity graph' insecure order' ∧
        ((leaving secure calls).map (lossOf R loopInfoGetter pdg calls)).sum =
          ((entering secure calls).map (lossOf R loopInfoGetter pdg calls)).sum) := by
  obtain ⟨calls₀, h, hcalls₀⟩ := CallGraph.exists_represents_create (R := R) llvmGraph
  rw [numOfContextSwitches_eq h hassign, numOfContextSwitches_eq h hassign,
    Saturation.nestedSum_eq_nestedSum_iff, sum_borderNumbers h hassign, sum_borderNumbers h hassign]
  have hperm : calls₀.Perm calls := (List.perm_ext_iff_of_nodup h.distinct hnodup).2 fun c =>
    (hcalls₀ c.1 c.2).trans (hcalls c.1 c.2).symm
  obtain ⟨henter, hleave⟩ := entering_eq_leaving hcomplement hcalls₀
  have hsums : ((entering secure calls₀).map (normalizedCalls R loopInfoGetter pdg calls₀)).sum +
        ((leaving secure calls₀).map (rawCalls loopInfoGetter pdg)).sum =
      ((entering insecure calls₀).map (normalizedCalls R loopInfoGetter pdg calls₀)).sum +
        ((leaving insecure calls₀).map (rawCalls loopInfoGetter pdg)).sum ↔
      ((leaving secure calls).map (lossOf R loopInfoGetter pdg calls)).sum =
        ((entering secure calls).map (lossOf R loopInfoGetter pdg calls)).sum := by
    unfold leaving entering at henter hleave ⊢
    rw [henter, hleave, sum_rawCalls loopInfoGetter pdg calls₀, sum_rawCalls loopInfoGetter pdg calls₀,
      sum_lossOf_perm loopInfoGetter pdg hperm, sum_lossOf_perm loopInfoGetter pdg hperm]
    constructor
    · intro heq
      linarith
    · intro heq
      linarith
  rw [hsums]
  rfl

end Top

/-- `false` calls `true` once, which calls itself twice. -/
def selfCalls : LLVMCallGraph Bool :=
  { nodes := [(some false, [some true]), (some true, [some true, some true])] }

def selfCallsPDG : PDG Bool Empty Unit Unit :=
  withCallSites oneCallPDG ([false, true, true].map fun caller =>
    { getInstruction := (), getCaller := caller, getParent := () })

def onlyCaller : Partition Bool Empty := { partition := {false} }

/-- The secure side of `true` reports no context switch, the other side one. -/
theorem selfCalls_differ :
    ∃ graph', assignWeights oneCallModule selfCallsPDG (fun _ => none) boolOrder oneCallSecure
        (CallGraph.create selfCalls : CallGraph Bool ℚ) = some graph' ∧
      numOfContextSwitches graph' oneCallSecure boolOrder = 0 ∧
      numOfContextSwitches graph' onlyCaller boolOrder = 1 := by
  have hnumbers : (assignWeights oneCallModule selfCallsPDG (fun _ => none) boolOrder oneCallSecure
      (CallGraph.create selfCalls : CallGraph Bool ℚ)).map (fun graph' =>
        (numOfContextSwitches graph' oneCallSecure boolOrder,
          numOfContextSwitches graph' onlyCaller boolOrder)) = some (0, 1) := by
    decide +kernel
  obtain ⟨graph', h, hpair⟩ := Option.map_eq_some_iff.1 hnumbers
  exact ⟨graph', h, congrArg Prod.fst hpair, congrArg Prod.snd hpair⟩

theorem selfCalls_iff :
    ∃ graph', assignWeights oneCallModule selfCallsPDG (fun _ => none) boolOrder oneCallSecure
        (CallGraph.create selfCalls : CallGraph Bool ℚ) = some graph' ∧
      (numOfContextSwitches graph' onlyCaller boolOrder =
          numOfContextSwitches graph' oneCallSecure boolOrder ↔
        (MeetsInfinity graph' onlyCaller boolOrder ∧ MeetsInfinity graph' oneCallSecure boolOrder) ∨
        (¬ MeetsInfinity graph' onlyCaller boolOrder ∧
          ¬ MeetsInfinity graph' oneCallSecure boolOrder ∧
          ((leaving onlyCaller [(false, true), (true, true)]).map
              (lossOf ℚ (fun _ => none) selfCallsPDG [(false, true), (true, true)])).sum =
            ((entering onlyCaller [(false, true), (true, true)]).map
              (lossOf ℚ (fun _ => none) selfCallsPDG [(false, true), (true, true)])).sum)) := by
  have hsome : (assignWeights oneCallModule selfCallsPDG (fun _ => none) boolOrder oneCallSecure
      (CallGraph.create selfCalls : CallGraph Bool ℚ)).isSome = true := by decide
  have hcalls : ∀ f g, (f, g) ∈ [(false, true), (true, true)] ↔ selfCalls.Records f g := by
    unfold LLVMCallGraph.Records
    decide
  obtain ⟨graph', h⟩ := Option.isSome_iff_exists.1 hsome
  -- the weights were assigned when `true` was the secure function, not `false`
  exact ⟨graph', h, numOfContextSwitches_eq_iff h (fun f _ => by cases f <;> decide) (by decide)
    hcalls boolOrder⟩

end PartitionStatistics

end Vazgen
