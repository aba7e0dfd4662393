import Vazgen.Analysis.CallGraphWeights
import Vazgen.Debug.OptimizationFactorsTable
import Vazgen.Lib.Decimal
import Vazgen.Optimization.ILPOptimization
import Mathlib.Algebra.Ring.Int.Defs

/-!
# The names of the edge variables

A call edge should have a variable of its own in the exported model.  But its name is made of the
indexes of its two ends without anything between them, so the edges from 1 to 12 and from 11 to 2 are
both called `f112`.

**`edgeNames_nodup_iff`**: the names are different exactly if no digits can be moved from the second
index of one edge to the first so as to get another edge, in both places that write such names.
-/

namespace Vazgen

namespace EdgeNames

variable {F G V N R : Type} [DecidableEq F]

/-- The name that both places make of two indexes. -/
def edgeName (p : Nat × Nat) : String := "f" ++ toString p.1 ++ toString p.2

theorem toList_edgeName (p : Nat × Nat) : (edgeName p).toList = 'f' :: Decimal.digits p := by
  unfold edgeName Decimal.digits
  rw [String.toList_append, String.toList_append, Nat.toString_eq_repr, Nat.toString_eq_repr,
    Nat.toList_repr, Nat.toList_repr]
  rfl

theorem edgeName_eq_iff {p q : Nat × Nat} :
    edgeName p = edgeName q ↔ Decimal.digits p = Decimal.digits q := by
  rw [← String.toList_inj, toList_edgeName, toList_edgeName, List.cons_inj_right]

/-- The indexes of the ends of a call, in a list of functions. -/
def callIdx (functions : List F) (call : F × F) : Nat × Nat :=
  (functions.idxOf call.1, functions.idxOf call.2)

theorem nodup_callNames_iff {functions : List F} {calls : List (F × F)} (hcalls : calls.Nodup)
    (hends : ∀ call ∈ calls, call.1 ∈ functions ∧ call.2 ∈ functions) :
    (calls.map fun call => edgeName (callIdx functions call)).Nodup ↔
      ∀ c ∈ calls, ∀ d ∈ calls,
        ¬ Decimal.Shifted (callIdx functions c) (callIdx functions d) := by
  have hidx : (calls.map (callIdx functions)).Nodup := by
    refine hcalls.map_on fun c hc d hd heq => ?_
    obtain ⟨h1, h2⟩ := Prod.mk.inj heq
    exact Prod.ext ((List.idxOf_inj (hends c hc).1).1 h1) ((List.idxOf_inj (hends c hc).2).1 h2)
  have hdigits := Decimal.nodup_digits_iff hidx
  rw [List.map_map, List.nodup_map_iff_inj_on hcalls] at hdigits
  simp only [List.forall_mem_map, Function.comp_apply] at hdigits
  rw [← hdigits, List.nodup_map_iff_inj_on hcalls]
  simp only [edgeName_eq_iff]

omit [DecidableEq F] in
/-- Rows with different keys, and different columns in each row. -/
theorem nodup_flatMap_pairs {α : Type} {rows : List α} {key : α → F} {cols : α → List F}
    (hrows : (rows.map key).Nodup) (hcols : ∀ row ∈ rows, (cols row).Nodup) :
    (rows.flatMap fun row => (cols row).map fun col => (key row, col)).Nodup := by
  refine List.nodup_flatMap.2 ⟨fun row hrow => (hcols row hrow).map (Prod.mk_right_injective _), ?_⟩
  refine (List.pairwise_map.1 hrows).imp fun hne => ?_
  refine List.disjoint_left.2 fun call h1 h2 => hne ?_
  obtain ⟨_, -, rfl⟩ := List.mem_map.1 h1
  obtain ⟨_, -, heq⟩ := List.mem_map.1 h2
  exact (congrArg Prod.fst heq).symm

/-! ## The solver's model -/

section Solver

open ILPOptimization

/-- The call edges that have variables. -/
def callEdges (callgraph : CallGraph F R) : List (Edge F R) :=
  (edgeVariables callgraph).map (·.2)

/-- The indexes of the ends of an edge. -/
def edgeIdx (callgraph : CallGraph F R) (edge : Edge F R) : Nat × Nat :=
  (functionIdx callgraph edge.getSource, functionIdx callgraph edge.getSink)

omit [DecidableEq F] in
theorem callEdges_eq (callgraph : CallGraph F R) :
    callEdges callgraph = callgraph.functionNodes.flatMap (·.outEdges) := by
  unfold callEdges edgeVariables
  rw [List.map_flatMap]
  refine List.flatMap_congr fun node _ => ?_
  rw [List.map_map]
  exact List.zipIdx_map_fst 0 node.outEdges

theorem functionIdx_eq {callgraph : CallGraph F R} {f : F}
    (hf : f ∈ callgraph.functionNodes.map (·.getFunction)) :
    functionIdx callgraph f = (callgraph.functionNodes.map (·.getFunction)).idxOf f := by
  obtain ⟨node, hnode, rfl⟩ := List.mem_map.1 hf
  unfold functionIdx
  rw [List.findIdx?_eq_some_of_exists ⟨node, hnode, decide_eq_true rfl⟩, Option.getD_some,
    List.idxOf, List.findIdx_map]
  rfl

theorem names_createEdgeVariables [Zero R] [One R] (callgraph : CallGraph F R) :
    (createEdgeVariables callgraph).map (·.name) =
      (callEdges callgraph).map fun edge => edgeName (edgeIdx callgraph edge) := by
  unfold createEdgeVariables callEdges
  rw [List.map_map, List.map_map]
  rfl

/-- What the names need of a call graph: it does not depend on the iteration order. -/
structure Simple (callgraph : CallGraph F R) : Prop where
  wellFormed : callgraph.WellFormed
  once : ∀ node ∈ callgraph.functionNodes, (node.outEdges.map (·.getSink)).Nodup

theorem simple_create [Zero R] [One R] (llvmGraph : LLVMCallGraph F) :
    Simple (CallGraph.create llvmGraph : CallGraph F R) := by
  obtain ⟨calls, h, -⟩ := CallGraph.exists_represents_create (R := R) llvmGraph
  exact ⟨h.wellFormed, fun node hnode => (h.edges_once hnode).1⟩

omit [DecidableEq F] in
theorem Simple.kept {callgraph callgraph' : CallGraph F R} (h : Simple callgraph)
    (hkept : WeightAssigningHelper.GraphKept callgraph callgraph') : Simple callgraph' := by
  refine ⟨hkept.wellFormed h.wellFormed, fun node' hnode' => ?_⟩
  obtain ⟨node, hnode, hn⟩ := WeightAssigningHelper.exists_left_of_forall₂ hkept hnode'
  have hsinks : node'.outEdges.map (·.getSink) = node.outEdges.map (·.getSink) := by
    rw [← List.forall₂_eq_eq_eq, List.forall₂_map_left_iff, List.forall₂_map_right_iff]
    exact hn.outEdges.flip.imp fun _ _ he => he.1.sink
  rw [hsinks]
  exact h.once node hnode

omit [DecidableEq F] in
theorem Simple.perm {callgraph callgraph' : CallGraph F R} (h : Simple callgraph)
    (hperm : callgraph'.functionNodes.Perm callgraph.functionNodes) : Simple callgraph' := by
  have hmap := hperm.map (·.getFunction)
  refine ⟨⟨hmap.nodup_iff.2 h.wellFormed.nodup, fun node hnode => ?_, fun node hnode edge hedge => ?_⟩,
    fun node hnode => h.once node (hperm.mem_iff.1 hnode)⟩
  · exact h.wellFormed.source node (hperm.mem_iff.1 hnode)
  · exact hmap.mem_iff.2 (h.wellFormed.sink_mem node (hperm.mem_iff.1 hnode) edge hedge)

omit [DecidableEq F] in
theorem Simple.nodup_calls {callgraph : CallGraph F R} (h : Simple callgraph) :
    ((callEdges callgraph).map fun edge => (edge.getSource, edge.getSink)).Nodup := by
  have hpairs : (callgraph.functionNodes.flatMap fun node =>
      (node.outEdges.map (·.getSink)).map fun sink => (node.getFunction, sink)).Nodup :=
    nodup_flatMap_pairs h.wellFormed.nodup h.once
  rw [callEdges_eq, List.map_flatMap]
  refine (List.flatMap_congr fun node hnode => ?_) ▸ hpairs
  rw [List.map_map]
  refine List.map_congr_left fun edge hedge => ?_
  rw [h.wellFormed.source node hnode edge hedge]
  rfl

/-- **The names in the solver's model.** -/
theorem Simple.nodup_names_iff [Zero R] [One R] {callgraph : CallGraph F R} (h : Simple callgraph) :
    ((createEdgeVariables callgraph).map (·.name)).Nodup ↔
      ∀ e₁ ∈ callEdges callgraph, ∀ e₂ ∈ callEdges callgraph,
        ¬ Decimal.Shifted (edgeIdx callgraph e₁) (edgeIdx callgraph e₂) := by
  have hends : ∀ edge ∈ callEdges callgraph,
      edge.getSource ∈ callgraph.functionNodes.map (·.getFunction) ∧
        edge.getSink ∈ callgraph.functionNodes.map (·.getFunction) := by
    intro edge hedge
    obtain ⟨p, hp, rfl⟩ := List.mem_map.1 hedge
    exact ends_mem h.wellFormed hp
  have hidx : ∀ edge ∈ callEdges callgraph, edgeIdx callgraph edge =
      callIdx (callgraph.functionNodes.map (·.getFunction)) (edge.getSource, edge.getSink) := by
    intro edge hedge
    exact Prod.ext (functionIdx_eq (hends edge hedge).1) (functionIdx_eq (hends edge hedge).2)
  have hnames := nodup_callNames_iff h.nodup_calls (List.forall_mem_map.2 hends)
  rw [List.map_map] at hnames
  simp only [List.forall_mem_map] at hnames
  rw [names_createEdgeVariables, List.map_congr_left fun edge hedge => by rw [hidx edge hedge]]
  refine hnames.trans (forall₂_congr fun e₁ he₁ => forall₂_congr fun e₂ he₂ => ?_)
  rw [hidx e₁ he₁, hidx e₂ he₂]

end Solver

/-! ## The dumped program -/

section Dump

open OptimizationFactorsTable

theorem forall₂_of_mapM {α β : Type} {f : α → Option β} {l : List α} {r : List β}
    (h : l.mapM f = some r) : List.Forall₂ (fun a b => f a = some b) l r := by
  induction l generalizing r with
  | nil =>
    cases h
    exact .nil
  | cons a l ih =>
    rw [List.mapM_cons] at h
    obtain ⟨b, hb, h⟩ := Option.bind_eq_some_iff.1 h
    obtain ⟨bs, hbs, h⟩ := Option.bind_eq_some_iff.1 h
    cases h
    exact .cons hb (ih hbs)

/-- What the results of a fallible loop have in common with its inputs. -/
theorem map_eq_of_mapM {α β γ : Type} {f : α → Option β} {key : α → γ} {key' : β → γ} {l : List α}
    {r : List β} (h : l.mapM f = some r) (hf : ∀ a ∈ l, ∀ b, f a = some b → key' b = key a) :
    r.map key' = l.map key := by
  have hall := forall₂_of_mapM h
  clear h
  induction hall with
  | nil => rfl
  | @cons a b l r hb _ ih =>
    obtain ⟨ha, hl⟩ := List.forall_mem_cons.1 hf
    rw [List.map_cons, List.map_cons, ha b hb, ih hl]

/-- The calls that the rows hold, in the order of the loops. -/
def dumpedCalls (order : IterationOrder F) (rows : List (ILPOptimizationDataRow F)) : List (F × F) :=
  rows.flatMap fun row => (order.list row.callees).map fun callee => (row.getFunction, callee)

theorem addCalls_function (isInLoop : Bool) (callees : List F) (row : ILPOptimizationDataRow F) :
    (callees.foldl (·.addCall isInLoop) row).getFunction = row.getFunction := by
  induction callees generalizing row with
  | nil => rfl
  | cons callee callees ih => exact ih _

/-- Filling a row does not change its function. -/
theorem fillRow_function {M : Module F G V} {pdg : PDG F G V N} {calls : List (V × Bool)}
    {row row' : ILPOptimizationDataRow F} (h : fillRow M pdg calls row = some row') :
    row'.getFunction = row.getFunction := by
  unfold fillRow at h
  split at h
  · generalize hstart : ({ row with getFSize := some (M.functionSize row.getFunction) } :
      ILPOptimizationDataRow F) = start at h
    have hfun : start.getFunction = row.getFunction := hstart ▸ rfl
    clear hstart
    rw [← hfun]
    clear hfun
    induction calls generalizing start with
    | nil =>
      cases h
      rfl
    | cons call calls ih =>
      rw [List.foldlM_cons] at h
      obtain ⟨next, hnext, h⟩ := Option.bind_eq_some_iff.1 h
      obtain ⟨node, -, hnext⟩ := Option.bind_eq_some_iff.1 hnext
      cases hnext
      exact (ih _ h).trans (addCalls_function _ _ _)
  · cases h
    rfl

theorem functions_collectOptimizationData {M : Module F G V} {pdg : PDG F G V N}
    {calls : F → List (V × Bool)} {rows : List (ILPOptimizationDataRow F)}
    (h : collectOptimizationData M pdg calls = some rows) :
    rows.map (·.getFunction) = M.functions := by
  have hmap : rows.map (·.getFunction) = M.functions.map id := by
    refine map_eq_of_mapM h fun f _ row hrow => ?_
    split at hrow
    · cases hrow
      rfl
    · exact fillRow_function hrow
  rwa [List.map_id] at hmap

theorem of_idxOf? {l : List F} {f : F} {i : Nat} (h : l.idxOf? f = some i) :
    f ∈ l ∧ i = l.idxOf f := by
  refine ⟨List.isSome_idxOf?.1 (by rw [h]; rfl), ?_⟩
  rw [List.idxOf_eq_getD_idxOf?, h, Option.getD_some]

/-- Both functions of an edge are in the module, and its name is made of their positions. -/
theorem of_dumpEdge {M : Module F G V} {row : ILPOptimizationDataRow F} {callee : F}
    {edge : DumpedEdge} (h : dumpEdge M row callee = some edge) :
    callee ∈ M.functions ∧
      edge.edgeVarName = edgeName (callIdx M.functions (row.getFunction, callee)) := by
  obtain ⟨currentIdx, hcurrent, h⟩ := Option.bind_eq_some_iff.1 h
  obtain ⟨calleeIdx, hcallee, h⟩ := Option.bind_eq_some_iff.1 h
  cases h
  obtain ⟨-, rfl⟩ := of_idxOf? hcurrent
  obtain ⟨hmem, rfl⟩ := of_idxOf? hcallee
  exact ⟨hmem, rfl⟩

/-- The names are those of the calls, and these lead to functions of the module. -/
theorem names_dumpedEdges {order : IterationOrder F} {M : Module F G V}
    {rows : List (ILPOptimizationDataRow F)} {edges : List DumpedEdge}
    (h : dumpedEdges order M rows = some edges) :
    (∀ call ∈ dumpedCalls order rows, call.2 ∈ M.functions) ∧
      edges.map (·.edgeVarName) = (dumpedCalls order rows).map fun call =>
        edgeName (callIdx M.functions call) := by
  obtain ⟨edgess, hrows, rfl⟩ := Option.map_eq_some_iff.1 h
  constructor
  · intro call hcall
    obtain ⟨row, hrow, hcall⟩ := List.mem_flatMap.1 hcall
    obtain ⟨callee, hcallee, rfl⟩ := List.mem_map.1 hcall
    obtain ⟨_, _, hedges⟩ := WeightAssigningHelper.exists_right_of_forall₂ (forall₂_of_mapM hrows) hrow
    obtain ⟨_, _, hedge⟩ := WeightAssigningHelper.exists_right_of_forall₂ (forall₂_of_mapM hedges) hcallee
    exact (of_dumpEdge hedge).1
  · unfold dumpedCalls
    rw [List.map_flatten, List.map_flatMap, List.flatMap_def]
    congr 1
    refine map_eq_of_mapM hrows fun row _ edges hedges => ?_
    rw [List.map_map]
    exact map_eq_of_mapM hedges fun callee _ edge hedge => (of_dumpEdge hedge).2

/-- **The names in the dumped program.** -/
theorem nodup_dumpedNames_iff {order : IterationOrder F} {M : Module F G V} {pdg : PDG F G V N}
    {calls : F → List (V × Bool)} {rows : List (ILPOptimizationDataRow F)} {edges : List DumpedEdge}
    (hM : M.functions.Nodup) (hrows : collectOptimizationData M pdg calls = some rows)
    (hedges : dumpedEdges order M rows = some edges) :
    (edges.map (·.edgeVarName)).Nodup ↔
      ∀ c ∈ dumpedCalls order rows, ∀ d ∈ dumpedCalls order rows,
        ¬ Decimal.Shifted (callIdx M.functions c) (callIdx M.functions d) := by
  have hfunctions := functions_collectOptimizationData hrows
  obtain ⟨hcallees, hnames⟩ := names_dumpedEdges hedges
  rw [hnames]
  refine nodup_callNames_iff ?_ fun call hcall => ⟨?_, hcallees call hcall⟩
  · exact nodup_flatMap_pairs (hfunctions ▸ hM) fun row _ => order.nodup row.callees
  · obtain ⟨row, hrow, hcall⟩ := List.mem_flatMap.1 hcall
    obtain ⟨callee, -, rfl⟩ := List.mem_map.1 hcall
    rw [← hfunctions]
    exact List.mem_map_of_mem hrow

theorem exists_mapM {α β : Type} {f : α → Option β} {l : List α} (h : ∀ a ∈ l, ∃ b, f a = some b) :
    ∃ r, l.mapM f = some r := by
  induction l with
  | nil => exact ⟨[], rfl⟩
  | cons a l ih =>
    obtain ⟨ha, hl⟩ := List.forall_mem_cons.1 h
    obtain ⟨b, hb⟩ := ha
    obtain ⟨r, hr⟩ := ih hl
    exact ⟨b :: r, by rw [List.mapM_cons, hb, hr]; rfl⟩

/-- A program that is dumped has its call edges. -/
theorem exists_dumpedEdges {order : IterationOrder F} {M : Module F G V} {secure : Partition F G}
    {rows : List (ILPOptimizationDataRow F)} {text : String}
    (h : dumpILPModule order M secure rows = some text) :
    ∃ edges, dumpedEdges order M rows = some edges := by
  obtain ⟨parts, hparts, -⟩ := Option.bind_eq_some_iff.1 h
  obtain ⟨edgess, hedgess⟩ := exists_mapM (f := dumpEdges order M) (l := rows) fun row hrow => by
    obtain ⟨part, -, hpart⟩ :=
      WeightAssigningHelper.exists_right_of_forall₂ (forall₂_of_mapM hparts) hrow
    obtain ⟨_, -, hpart⟩ := Option.bind_eq_some_iff.1 hpart
    obtain ⟨edges, hedges, -⟩ := Option.bind_eq_some_iff.1 hpart
    exact ⟨edges, hedges⟩
  exact ⟨edgess.flatten, Option.map_eq_some_iff.2 ⟨edgess, hedgess, rfl⟩⟩

end Dump

/-! ## Top theorem -/

/-- **When the names of the edge variables are different**: in the solver's model, for any iteration
order of the call graph and any weights, and in the dumped program. -/
theorem edgeNames_nodup_iff [Zero R] [One R] :
    (∀ (llvmGraph : LLVMCallGraph F) (graph callgraph : CallGraph F R),
      WeightAssigningHelper.GraphKept (CallGraph.create llvmGraph) graph →
      callgraph.functionNodes.Perm graph.functionNodes →
      (((ILPOptimization.createEdgeVariables callgraph).map (·.name)).Nodup ↔
        ∀ e₁ ∈ callEdges callgraph, ∀ e₂ ∈ callEdges callgraph,
          ¬ Decimal.Shifted (edgeIdx callgraph e₁) (edgeIdx callgraph e₂))) ∧
    ∀ (M : Module F G V) (pdg : PDG F G V N) (calls : F → List (V × Bool))
      (order : IterationOrder F) (rows : List (OptimizationFactorsTable.ILPOptimizationDataRow F))
      (edges : List OptimizationFactorsTable.DumpedEdge), M.functions.Nodup →
      OptimizationFactorsTable.collectOptimizationData M pdg calls = some rows →
      OptimizationFactorsTable.dumpedEdges order M rows = some edges →
      ((edges.map (·.edgeVarName)).Nodup ↔
        ∀ c ∈ dumpedCalls order rows, ∀ d ∈ dumpedCalls order rows,
          ¬ Decimal.Shifted (callIdx M.functions c) (callIdx M.functions d)) :=
  ⟨fun llvmGraph _ _ hkept hperm =>
      (((simple_create llvmGraph).kept hkept).perm hperm).nodup_names_iff,
    fun _ _ _ _ _ _ hM hrows hedges => nodup_dumpedNames_iff hM hrows hedges⟩

/-- 0 calls all the others, 1 calls 12 and 11 calls 2. -/
def collidingCallees (f : Fin 13) : List (Fin 13) :=
  if f = 0 then (List.finRange 13).tail else if f = 1 then [12] else if f = 11 then [2] else []

def collidingGraph : LLVMCallGraph (Fin 13) where
  nodes := (List.finRange 13).map fun f => (some f, (collidingCallees f).map some)

def collidingModule : Module (Fin 13) Empty Unit where
  functions := List.finRange 13
  globals := []
  getName := fun f => "g" ++ toString f
  isDeclaration := fun _ => false
  isIntrinsic := fun _ => false
  argTypes := fun _ => []
  getReturnType := fun _ => .void
  functionSize := fun _ => 1
  returnInsts := fun _ => []
  valueClass := fun _ => .callInst

/-- A node for the call instruction of each function and one for the function. -/
def collidingPDG : PDG (Fin 13) Empty Unit (Fin 13 ⊕ Fin 13) where
  kind := fun n => match n with
    | .inl f => .instruction f
    | .inr f => .function f
  isLLVMNode := fun _ => true
  getNodeValue := fun _ => some ()
  getParent := fun _ => none
  isPointerArgOperand := fun _ => false
  outEdges := fun n => match n with
    | .inl f => (collidingCallees f).map fun callee =>
      { getSource := n, getDestination := .inr callee, isControlEdge := true }
    | .inr _ => []
  inEdges := fun _ => []
  hasFunctionPDG := fun _ => true
  getCallSites := fun _ => []
  llvmNodes := fun f => [((), .inl f)]
  getNode := fun f _ => some (.inl f)
  getFormalArgNode := fun _ _ => none
  getGlobalVariableNode := fun _ => none

def collidingOrder : IterationOrder (Fin 13) where
  list := fun s => (List.finRange 13).filter (· ∈ s)
  nodup := fun _ => (List.nodup_finRange 13).filter _
  mem := fun _ _ => by simp

/-- The calls of 0 are in a loop. -/
def collidingDump : Option (List OptimizationFactorsTable.DumpedEdge) := do
  let rows ← OptimizationFactorsTable.collectOptimizationData collidingModule collidingPDG
    fun f => [((), f = 0)]
  OptimizationFactorsTable.dumpedEdges collidingOrder collidingModule rows

/-- Two edges are called `f112`. -/
theorem edgeNames_collide :
    ¬ ((ILPOptimization.createEdgeVariables (CallGraph.create collidingGraph :
      CallGraph (Fin 13) Int)).map (·.name)).Nodup ∧
    ∃ edges, collidingDump = some edges ∧ ¬ (edges.map (·.edgeVarName)).Nodup := by
  have hcount : ((ILPOptimization.createEdgeVariables (CallGraph.create collidingGraph :
      CallGraph (Fin 13) Int)).map (·.name)).count "f112" = 2 := by decide +kernel
  have hdump : collidingDump.map (fun edges => (edges.map (·.edgeVarName)).count "f112") =
      some 2 := by decide +kernel
  obtain ⟨edges, hedges, hdump⟩ := Option.map_eq_some_iff.1 hdump
  refine ⟨fun h => ?_, edges, hedges, fun h => ?_⟩
  · exact absurd (hcount ▸ List.nodup_iff_count_le_one.1 h "f112") (by decide)
  · exact absurd (hdump ▸ List.nodup_iff_count_le_one.1 h "f112") (by decide)

theorem edgeNames_colliding_iff :
    (((ILPOptimization.createEdgeVariables (CallGraph.create collidingGraph :
        CallGraph (Fin 13) Int)).map (·.name)).Nodup ↔
      ∀ e₁ ∈ callEdges (CallGraph.create collidingGraph : CallGraph (Fin 13) Int),
        ∀ e₂ ∈ callEdges (CallGraph.create collidingGraph : CallGraph (Fin 13) Int),
          ¬ Decimal.Shifted (edgeIdx (CallGraph.create collidingGraph) e₁)
            (edgeIdx (CallGraph.create collidingGraph) e₂)) ∧
    ∃ rows edges, collidingDump = some edges ∧
      ((edges.map (·.edgeVarName)).Nodup ↔
        ∀ c ∈ dumpedCalls collidingOrder rows, ∀ d ∈ dumpedCalls collidingOrder rows,
          ¬ Decimal.Shifted (callIdx (List.finRange 13) c) (callIdx (List.finRange 13) d)) := by
  obtain ⟨hsolver, hdumped⟩ := edgeNames_nodup_iff (F := Fin 13) (G := Empty) (V := Unit)
    (N := Fin 13 ⊕ Fin 13) (R := Int)
  refine ⟨hsolver collidingGraph _ _ (.refl _) (.refl _), ?_⟩
  obtain ⟨edges, hedges⟩ := Option.isSome_iff_exists.1 (show collidingDump.isSome by decide +kernel)
  have hbind := hedges
  unfold collidingDump at hbind
  obtain ⟨rows, hrows, hdump⟩ := Option.bind_eq_some_iff.1 hbind
  exact ⟨rows, edges, hedges, hdumped collidingModule collidingPDG _ collidingOrder rows edges
    (List.nodup_finRange 13) hrows hdump⟩

end EdgeNames

end Vazgen
