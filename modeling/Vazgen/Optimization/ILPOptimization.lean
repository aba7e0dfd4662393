import Vazgen.Analysis.CallGraph
import Vazgen.Analysis.Partition
import Vazgen.Lib.LinearProgram

/-!
# The ILP optimisation

The model handed to the solver has a variable in `[0, 1]` for every node and for every out-edge, and
no integrality constraint.  The functions moved are those whose variable is `1` in the solution.

**`moved_optimal`**: for an optimal solution, fractional or not, they are a best set among all that
contain the secure functions and neither `main` nor a declaration besides.
-/

namespace Vazgen

namespace ILPOptimization

variable {F G V R : Type}

/-! ## Algorithm -/

/-- The variable of a node, and of an edge: a position in the `outEdges` of its source. -/
inductive Var (F : Type) where
  | node (f : F)
  | edge (source : F) (index : Nat)
deriving DecidableEq

section Model

/-- The index of a function in the iteration order, `0` when it is not there. -/
def functionIdx [DecidableEq F] (callgraph : CallGraph F R) (f : F) : Nat :=
  ((callgraph.functionNodes.findIdx? fun node => node.getFunction = f)).getD 0

/-- `createNodeVariables` -/
def createNodeVariables [Zero R] [One R] (callgraph : CallGraph F R) :
    List (LinearProgram.Variable (Var F) R) :=
  callgraph.functionNodes.zipIdx.map fun (node, i) =>
    { var := .node node.getFunction, lower := 0, upper := 1, name := "v" ++ toString i }

/-- The out-edges of all nodes, each with its variable. -/
def edgeVariables (callgraph : CallGraph F R) : List (Var F × Edge F R) :=
  callgraph.functionNodes.flatMap fun node =>
    node.outEdges.zipIdx.map fun (edge, i) => (.edge node.getFunction i, edge)

/-- `createEdgeVariables` -/
def createEdgeVariables [DecidableEq F] [Zero R] [One R] (callgraph : CallGraph F R) :
    List (LinearProgram.Variable (Var F) R) :=
  (edgeVariables callgraph).map fun (var, edge) =>
    { var := var, lower := 0, upper := 1
      name := "f" ++ toString (functionIdx callgraph edge.getSource) ++
        toString (functionIdx callgraph edge.getSink) }

/-- A function outside the secure partition that must not be moved. -/
def excluded (M : Module F G V) (f : F) : Bool := M.isDeclaration f || M.getName f = "main"

/-- `createConstraints` -/
def createConstraints [DecidableEq F] [Zero R] [One R] [Neg R] (callgraph : CallGraph F R)
    (M : Module F G V) (secure : Partition F G) : List (LinearProgram.Constraint (Var F) R) :=
  (callgraph.functionNodes.flatMap fun node =>
    let f := node.getFunction
    if f ∈ secure.partition then
      [{ terms := [(.node f, 1)], relation := .le, bound := 1 },
        { terms := [(.node f, 1)], relation := .ge, bound := 1 }]
    else if excluded M f then [{ terms := [(.node f, 1)], relation := .le, bound := 0 }]
    else []) ++
  (edgeVariables callgraph).flatMap fun (var, edge) =>
    [{ terms := [(var, 1), (.node edge.getSource, -1), (.node edge.getSink, 1)]
       relation := .le, bound := 1 },
      { terms := [(var, 1), (.node edge.getSource, 1), (.node edge.getSink, -1)]
        relation := .le, bound := 1 }]

/-- The coefficient of a node in `createObjective`. -/
def nodeCost [Zero R] [Sub R] [Mul R] (node : Node F R) : R :=
  let sensitiveRelatedCost := if node.getWeight.hasFactor .sensitiveRelated then
    (node.getWeight.getFactor .sensitiveRelated).getWeight else 0
  let sizeCost := if node.getWeight.hasFactor .size then
    (node.getWeight.getFactor .size).getWeight else 0
  sensitiveRelatedCost - sizeCost

/-- `createObjective` -/
def createObjective [Zero R] [Add R] [Sub R] [Mul R] (callgraph : CallGraph F R) :
    List (Var F × R) :=
  ((edgeVariables callgraph).map fun (var, edge) => (var, edge.getWeight.getValue)) ++
    callgraph.functionNodes.map fun node => (.node node.getFunction, nodeCost node)

/-- The model handed to the solver. -/
def ilpModel [DecidableEq F] [Zero R] [One R] [Add R] [Neg R] [Sub R] [Mul R]
    (callgraph : CallGraph F R) (M : Module F G V) (secure : Partition F G) :
    LinearProgram.Program (Var F) R where
  vars := createNodeVariables callgraph ++ createEdgeVariables callgraph
  constraints := createConstraints callgraph M secure
  objective := createObjective callgraph

/-- `m_movedFunctions` for the values the solver found. -/
def movedFunctions [One R] [DecidableEq R] (callgraph : CallGraph F R) (vals : Var F → R) :
    List F :=
  (callgraph.functionNodes.filter fun node => vals (.node node.getFunction) = 1).map (·.getFunction)

/-- `run`: the solver fails or finds a value for every variable. -/
def run [DecidableEq F] [Zero R] [One R] [Add R] [Neg R] [Sub R] [Mul R] [DecidableEq R]
    (solve : LinearProgram.Program (Var F) R → Option (Var F → R)) (callgraph : CallGraph F R)
    (M : Module F G V) (secure : Partition F G) : List F :=
  match solve (ilpModel callgraph M secure) with
  | none => []
  | some vals => movedFunctions callgraph vals

/-- `apply` -/
def apply [DecidableEq F] (moved : List F) (secure insecure : Partition F G) :
    Partition F G × Partition F G :=
  moved.foldl (fun P f =>
    ((P.1.addToPartition f).removeRelatedFunction f, P.2.removeFromPartition f)) (secure, insecure)

end Model

/-! ## Exactness -/

section Exact

variable [DecidableEq F] [Field R] [LinearOrder R]

/-- The out-edges of all nodes. -/
def arcs (callgraph : CallGraph F R) : List (Cut.Arc F R) :=
  (edgeVariables callgraph).map fun (_, edge) =>
    { src := edge.getSource, dst := edge.getSink, weight := edge.getWeight.getValue }

def cost (callgraph : CallGraph F R) (f : F) : R :=
  match callgraph.getFunctionNode f with
  | none => 0
  | some node => nodeCost node

/-- The sum of the weights of the edges whose two ends are on the same side of `S`, plus the sum of
the node costs over `S`. -/
def quality (callgraph : CallGraph F R) (S : Finset F) : R :=
  LevelSet.score (callgraph.functionNodes.map (·.getFunction)) (arcs callgraph) (cost callgraph) S

/-- `S` contains the secure functions of the call graph, and no main function or declaration
besides. -/
structure Admissible (callgraph : CallGraph F R) (M : Module F G V) (secure : Partition F G)
    (S : Finset F) : Prop where
  secure_mem : ∀ f ∈ secure.partition, callgraph.hasFunctionNode f = true → f ∈ S
  excluded : ∀ f ∈ S, f ∉ secure.partition → M.isDeclaration f = false ∧ M.getName f ≠ "main"

section Feasible

variable {callgraph : CallGraph F R} {M : Module F G V} {secure : Partition F G}

/-- Node values that the constraints allow, whatever the edge values. -/
structure Allowed (callgraph : CallGraph F R) (M : Module F G V) (secure : Partition F G)
    (y : F → R) : Prop where
  bounds : ∀ f ∈ callgraph.functionNodes.map (·.getFunction), 0 ≤ y f ∧ y f ≤ 1
  secure_eq : ∀ f ∈ callgraph.functionNodes.map (·.getFunction), f ∈ secure.partition → y f = 1
  excluded_eq : ∀ f ∈ callgraph.functionNodes.map (·.getFunction), f ∉ secure.partition →
    excluded M f = true → y f = 0

omit [DecidableEq F] [LinearOrder R] in
theorem eval_objective (x : Var F → R) :
    LinearProgram.eval (createObjective callgraph) x =
      ((edgeVariables callgraph).map fun p => p.2.getWeight.getValue * x p.1).sum +
        (callgraph.functionNodes.map fun node => nodeCost node * x (.node node.getFunction)).sum := by
  simp only [LinearProgram.eval, createObjective, List.map_append, List.sum_append, List.map_map]
  rfl

theorem bounds_iff {x : Var F → R} :
    (∀ v ∈ (ilpModel callgraph M secure).vars, v.lower ≤ x v.var ∧ x v.var ≤ v.upper) ↔
      (∀ node ∈ callgraph.functionNodes, 0 ≤ x (.node node.getFunction) ∧
        x (.node node.getFunction) ≤ 1) ∧
      ∀ p ∈ edgeVariables callgraph, 0 ≤ x p.1 ∧ x p.1 ≤ 1 := by
  unfold ilpModel createNodeVariables createEdgeVariables
  rw [List.forall_mem_append, List.forall_mem_map, List.forall_mem_map]
  refine and_congr ?_ Iff.rfl
  rw [← List.zipIdx_map_fst 0 callgraph.functionNodes, List.forall_mem_map]
  simp

/-- Node values, and for every edge the largest value they allow. -/
def extend (callgraph : CallGraph F R) (y : F → R) : Var F → R
  | .node f => y f
  | .edge f i =>
    match callgraph.getFunctionNode f with
    | none => 0
    | some node =>
      match node.outEdges[i]? with
      | none => 0
      | some edge => 1 - |y edge.getSource - y edge.getSink|

theorem extend_edge (hwf : callgraph.WellFormed) (y : F → R) {p : Var F × Edge F R}
    (hp : p ∈ edgeVariables callgraph) :
    extend callgraph y p.1 = 1 - |y p.2.getSource - y p.2.getSink| := by
  unfold edgeVariables at hp
  obtain ⟨node, hnode, hp⟩ := List.mem_flatMap.1 hp
  obtain ⟨⟨edge, i⟩, he, rfl⟩ := List.mem_map.1 hp
  have hget := List.mem_zipIdx_iff_getElem?.1 he
  simp only [extend, hwf.getFunctionNode_eq hnode]
  dsimp only at hget
  rw [hget]

omit [DecidableEq F] [Field R] [LinearOrder R] in
theorem ends_mem (hwf : callgraph.WellFormed) {p : Var F × Edge F R}
    (hp : p ∈ edgeVariables callgraph) :
    p.2.getSource ∈ callgraph.functionNodes.map (·.getFunction) ∧
      p.2.getSink ∈ callgraph.functionNodes.map (·.getFunction) := by
  unfold edgeVariables at hp
  obtain ⟨node, hnode, hp⟩ := List.mem_flatMap.1 hp
  obtain ⟨⟨edge, i⟩, he, rfl⟩ := List.mem_map.1 hp
  have hedge : edge ∈ node.outEdges :=
    List.mem_of_getElem? (List.mem_zipIdx_iff_getElem?.1 he)
  refine ⟨?_, hwf.sink_mem node hnode edge hedge⟩
  rw [hwf.source node hnode edge hedge]
  exact List.mem_map_of_mem hnode

variable [IsStrictOrderedRing R]

/-- The two constraints of an edge bound its variable by the distance of the values of its ends. -/
theorem edge_constraints_iff (a b c : R) : a - b + c ≤ 1 ∧ a + b - c ≤ 1 ↔ a ≤ 1 - |b - c| := by
  constructor
  · rintro ⟨h1, h2⟩
    have : |b - c| ≤ 1 - a := abs_le.2 ⟨by linarith, by linarith⟩
    linarith
  · intro h
    obtain ⟨h1, h2⟩ := abs_le.1 (show |b - c| ≤ 1 - a by linarith)
    exact ⟨by linarith, by linarith⟩

theorem constraints_iff {x : Var F → R} :
    (∀ c ∈ createConstraints callgraph M secure, c.Holds x) ↔
      (∀ node ∈ callgraph.functionNodes,
        (node.getFunction ∈ secure.partition → x (.node node.getFunction) = 1) ∧
        (node.getFunction ∉ secure.partition → excluded M node.getFunction = true →
          x (.node node.getFunction) ≤ 0)) ∧
      ∀ p ∈ edgeVariables callgraph,
        x p.1 ≤ 1 - |x (.node p.2.getSource) - x (.node p.2.getSink)| := by
  unfold createConstraints
  rw [List.forall_mem_append]
  refine and_congr ?_ ?_
  · simp only [List.mem_flatMap, forall_exists_index, and_imp]
    rw [forall_comm]
    refine forall_congr' fun node => ?_
    rw [forall_comm]
    refine forall_congr' fun hnode => ?_
    by_cases hs : node.getFunction ∈ secure.partition
    · simp [hs, LinearProgram.Constraint.Holds, LinearProgram.eval, le_antisymm_iff]
    · by_cases he : excluded M node.getFunction
      · simp [hs, he, LinearProgram.Constraint.Holds, LinearProgram.eval]
      · simp [hs, he]
  · simp only [List.mem_flatMap, forall_exists_index, and_imp]
    rw [forall_comm]
    refine forall_congr' fun p => ?_
    rw [forall_comm]
    refine forall_congr' fun hp => ?_
    rw [← edge_constraints_iff]
    simp [LinearProgram.Constraint.Holds, LinearProgram.eval, sub_eq_add_neg, add_assoc]

/-- **What the constraints say**: an edge variable is at most one minus the distance of the values
of its ends. -/
theorem feasible_iff {x : Var F → R} :
    (ilpModel callgraph M secure).Feasible x ↔
      Allowed callgraph M secure (fun f => x (.node f)) ∧
      ∀ p ∈ edgeVariables callgraph, 0 ≤ x p.1 ∧
        x p.1 ≤ 1 - |x (.node p.2.getSource) - x (.node p.2.getSink)| := by
  constructor
  · rintro ⟨hbounds, hcons⟩
    obtain ⟨hnode, hedge⟩ := bounds_iff.1 hbounds
    obtain ⟨hfixed, hdist⟩ := constraints_iff.1 hcons
    refine ⟨⟨?_, ?_, ?_⟩, fun p hp => ⟨(hedge p hp).1, hdist p hp⟩⟩
    · exact List.forall_mem_map.2 hnode
    · exact List.forall_mem_map.2 fun node hn => (hfixed node hn).1
    · exact List.forall_mem_map.2 fun node hn hs he =>
        le_antisymm ((hfixed node hn).2 hs he) (hnode node hn).1
  · rintro ⟨hallowed, hedge⟩
    refine ⟨bounds_iff.2 ⟨List.forall_mem_map.1 hallowed.bounds, fun p hp => ?_⟩,
      constraints_iff.2 ⟨fun node hn => ⟨?_, ?_⟩, fun p hp => (hedge p hp).2⟩⟩
    · obtain ⟨h0, h1⟩ := hedge p hp
      have := abs_nonneg (x (.node p.2.getSource) - x (.node p.2.getSink))
      exact ⟨h0, by linarith⟩
    · exact hallowed.secure_eq _ (List.mem_map_of_mem hn)
    · exact fun hs he => (hallowed.excluded_eq _ (List.mem_map_of_mem hn) hs he).le

omit [LinearOrder R] [IsStrictOrderedRing R] in
theorem cost_node (hwf : callgraph.WellFormed) {node : Node F R}
    (hnode : node ∈ callgraph.functionNodes) :
    cost callgraph node.getFunction = nodeCost node := by
  simp only [cost, hwf.getFunctionNode_eq hnode]

/-- The objective is at most what the node values allow. -/
theorem objective_le_relaxed (hwf : callgraph.WellFormed)
    (hweight : ∀ node ∈ callgraph.functionNodes, ∀ edge ∈ node.outEdges,
      0 ≤ edge.getWeight.getValue) {x : Var F → R}
    (hx : (ilpModel callgraph M secure).Feasible x) :
    LinearProgram.eval (createObjective callgraph) x ≤
      LevelSet.relaxed (callgraph.functionNodes.map (·.getFunction)) (arcs callgraph)
        (cost callgraph) fun f => x (.node f) := by
  obtain ⟨-, hedge⟩ := feasible_iff.1 hx
  rw [eval_objective]
  unfold LevelSet.relaxed arcs
  rw [List.map_map, List.map_map]
  refine add_le_add (List.sum_le_sum fun p hp => ?_) (le_of_eq ?_)
  · have hw : 0 ≤ p.2.getWeight.getValue := by
      obtain ⟨node, hnode, hp⟩ := List.mem_flatMap.1 hp
      obtain ⟨⟨edge, i⟩, he, rfl⟩ := List.mem_map.1 hp
      exact hweight node hnode edge (List.mem_of_getElem? (List.mem_zipIdx_iff_getElem?.1 he))
    exact mul_le_mul_of_nonneg_left (hedge p hp).2 hw
  · refine congrArg List.sum (List.map_congr_left fun node hnode => ?_)
    rw [Function.comp_apply, cost_node hwf hnode]

omit [IsStrictOrderedRing R] in
/-- The largest edge values reach what the node values allow. -/
theorem objective_extend (hwf : callgraph.WellFormed) (y : F → R) :
    LinearProgram.eval (createObjective callgraph) (extend callgraph y) =
      LevelSet.relaxed (callgraph.functionNodes.map (·.getFunction)) (arcs callgraph)
        (cost callgraph) y := by
  rw [eval_objective]
  unfold LevelSet.relaxed arcs
  rw [List.map_map, List.map_map]
  congr 1
  · refine congrArg List.sum (List.map_congr_left fun p hp => ?_)
    rw [extend_edge hwf y hp]
    rfl
  · refine congrArg List.sum (List.map_congr_left fun node hnode => ?_)
    rw [Function.comp_apply, cost_node hwf hnode]
    rfl

theorem feasible_extend (hwf : callgraph.WellFormed) {y : F → R}
    (hy : Allowed callgraph M secure y) :
    (ilpModel callgraph M secure).Feasible (extend callgraph y) := by
  refine feasible_iff.2 ⟨hy, fun p hp => ?_⟩
  obtain ⟨hsource, hsink⟩ := ends_mem hwf hp
  rw [extend_edge hwf y hp]
  refine ⟨?_, le_refl _⟩
  obtain ⟨hs0, hs1⟩ := hy.bounds _ hsource
  obtain ⟨ht0, ht1⟩ := hy.bounds _ hsink
  have := abs_le.2 (⟨by linarith, by linarith⟩ : -1 ≤ y p.2.getSource - y p.2.getSink ∧
    y p.2.getSource - y p.2.getSink ≤ 1)
  linarith

/-- The indicator of an admissible set is allowed. -/
theorem allowed_indicator {S : Finset F} (hS : Admissible callgraph M secure S) :
    Allowed callgraph M secure (LevelSet.indicator S) where
  bounds f _ := by
    unfold LevelSet.indicator
    split
    · exact ⟨zero_le_one, le_refl 1⟩
    · exact ⟨le_refl 0, zero_le_one⟩
  secure_eq f hf hs := by
    refine if_pos (hS.secure_mem f hs ?_)
    obtain ⟨node, hnode, rfl⟩ := List.mem_map.1 hf
    exact CallGraph.hasFunctionNode_iff.2 ⟨node, hnode, rfl⟩
  excluded_eq f _ hs he := by
    refine if_neg fun hf => ?_
    obtain ⟨hdecl, hmain⟩ := hS.excluded f hf hs
    simp [ILPOptimization.excluded, hdecl, hmain] at he

omit [IsStrictOrderedRing R] in
theorem mem_movedFunctions {x : Var F → R} {f : F} :
    f ∈ (movedFunctions callgraph x).toFinset ↔
      f ∈ callgraph.functionNodes.map (·.getFunction) ∧ x (.node f) = 1 := by
  unfold movedFunctions
  rw [List.mem_toFinset, List.mem_map, List.mem_map]
  constructor
  · rintro ⟨node, hnode, rfl⟩
    obtain ⟨hnode, hx⟩ := List.mem_filter.1 hnode
    exact ⟨⟨node, hnode, rfl⟩, of_decide_eq_true hx⟩
  · rintro ⟨⟨node, hnode, rfl⟩, hx⟩
    exact ⟨node, List.mem_filter.2 ⟨hnode, decide_eq_true hx⟩, rfl⟩

/-- The level set of a feasible solution is admissible. -/
theorem admissible_movedFunctions {x : Var F → R}
    (hx : Allowed callgraph M secure fun f => x (.node f)) :
    Admissible callgraph M secure (movedFunctions callgraph x).toFinset where
  secure_mem f hs hf := by
    obtain ⟨node, hnode, rfl⟩ := CallGraph.hasFunctionNode_iff.1 hf
    have hmem := List.mem_map_of_mem (f := fun node : Node F R => node.getFunction) hnode
    exact mem_movedFunctions.2 ⟨hmem, hx.secure_eq _ hmem hs⟩
  excluded f hf hs := by
    obtain ⟨hmem, h1⟩ := mem_movedFunctions.1 hf
    have he : ILPOptimization.excluded M f = false := by
      by_contra he
      rw [Bool.not_eq_false] at he
      have h0 := hx.excluded_eq f hmem hs he
      rw [h1] at h0
      exact one_ne_zero h0
    simpa [ILPOptimization.excluded] using he

end Feasible

/-! ## Top theorem -/

/-- **The functions moved are a best admissible set**, whether the optimal solution is fractional or
not; and there always is a solution. -/
theorem moved_optimal [IsStrictOrderedRing R] (callgraph : CallGraph F R)
    (hwf : callgraph.WellFormed)
    (hweight : ∀ node ∈ callgraph.functionNodes, ∀ edge ∈ node.outEdges,
      0 ≤ edge.getWeight.getValue) (M : Module F G V) (secure : Partition F G) :
    (∃ x, (ilpModel callgraph M secure).Feasible x) ∧
    ∀ x, (ilpModel callgraph M secure).Optimal x →
      Admissible callgraph M secure (movedFunctions callgraph x).toFinset ∧
      ∀ S, Admissible callgraph M secure S →
        quality callgraph S ≤ quality callgraph (movedFunctions callgraph x).toFinset := by
  have hends : ∀ e ∈ arcs callgraph, e.src ∈ callgraph.functionNodes.map (·.getFunction) ∧
      e.dst ∈ callgraph.functionNodes.map (·.getFunction) := by
    intro e he
    obtain ⟨p, hp, rfl⟩ := List.mem_map.1 he
    exact ends_mem hwf hp
  have hsecure : Admissible callgraph M secure secure.partition :=
    ⟨fun f hf _ => hf, fun f hf hs => absurd hf hs⟩
  refine ⟨⟨_, feasible_extend hwf (allowed_indicator hsecure)⟩, fun x hx => ?_⟩
  obtain ⟨hallowed, -⟩ := feasible_iff.1 hx.feasible
  refine ⟨admissible_movedFunctions hallowed, fun S hS => ?_⟩
  -- no allowed node values can do better than those of the solution
  have hmax : ∀ y, Allowed callgraph M secure y →
      LevelSet.relaxed (callgraph.functionNodes.map (·.getFunction)) (arcs callgraph)
          (cost callgraph) y ≤
        LevelSet.relaxed (callgraph.functionNodes.map (·.getFunction)) (arcs callgraph)
          (cost callgraph) fun f => x (.node f) := by
    intro y hy
    rw [← objective_extend hwf y]
    exact (hx.maximal _ (feasible_extend hwf hy)).trans
      (objective_le_relaxed hwf hweight hx.feasible)
  have hlevel := LevelSet.level_maximal hallowed.bounds hends fun y hy h1 h0 =>
    hmax y ⟨hy, fun f hf hs => h1 f (hallowed.secure_eq f hf hs),
      fun f hf hs he => h0 f (hallowed.excluded_eq f hf hs he)⟩
  have hset : ∀ f ∈ callgraph.functionNodes.map (·.getFunction),
      LevelSet.level (fun f => x (.node f)) f =
        LevelSet.indicator (R := R) (movedFunctions callgraph x).toFinset f := by
    intro f hf
    unfold LevelSet.level LevelSet.indicator
    simp only [mem_movedFunctions, hf, true_and]
  calc quality callgraph S
      = LevelSet.relaxed (callgraph.functionNodes.map (·.getFunction)) (arcs callgraph)
          (cost callgraph) (LevelSet.indicator S) := (LevelSet.relaxed_indicator _ _ _ S).symm
    _ ≤ _ := hmax _ (allowed_indicator hS)
    _ ≤ _ := hlevel
    _ = LevelSet.relaxed (callgraph.functionNodes.map (·.getFunction)) (arcs callgraph)
          (cost callgraph) (LevelSet.indicator (movedFunctions callgraph x).toFinset) :=
        LevelSet.relaxed_congr hends hset
    _ = quality callgraph (movedFunctions callgraph x).toFinset :=
        LevelSet.relaxed_indicator _ _ _ _

end Exact

inductive RelayFunction
  | main
  | relay
  | work
deriving DecidableEq

/-- `main` calls `work` through `relay`. -/
def relayGraph : CallGraph RelayFunction ℚ where
  functionNodes :=
    [{ getFunction := .main, outEdges := [callEdge .main .relay 1], getWeight := Weight.new },
      { getFunction := .relay, inEdges := [callEdge .main .relay 1]
        outEdges := [callEdge .relay .work 1], getWeight := Weight.new },
      { getFunction := .work, inEdges := [callEdge .relay .work 1], getWeight := Weight.new }]

def relayModule : Module RelayFunction Empty Empty where
  functions := [.main, .relay, .work]
  globals := []
  getName
    | .main => "main"
    | .relay => "relay"
    | .work => "work"
  isDeclaration _ := false
  isIntrinsic _ := false
  argTypes _ := []
  getReturnType _ := .void
  functionSize _ := 1
  returnInsts _ := []
  valueClass v := v.elim

/-- `relay` stays half on either side. -/
def halfMoved : Var RelayFunction → ℚ
  | .node .main => 0
  | .node .relay => 1 / 2
  | .node .work => 1
  | .edge _ _ => 1 / 2

theorem getValue_callEdge {F : Type} (source sink : F) (calls : ℚ) :
    (callEdge source sink calls).getWeight.getValue = calls := by
  simp [callEdge, Weight.getValue, Weight.factors, Weight.hasFactor, Weight.addFactor, Weight.new,
    WeightFactor.isDefined, WeightFactor.new, WeightFactor.setValue, WeightFactor.getWeight]

theorem eval_relayGraph (x : Var RelayFunction → ℚ) :
    LinearProgram.eval (createObjective relayGraph) x =
      x (.edge .main 0) + x (.edge .relay 0) := by
  rw [eval_objective]
  simp [relayGraph, edgeVariables, getValue_callEdge, nodeCost, Weight.new, Weight.hasFactor,
    WeightFactor.new, WeightFactor.isDefined]

/-- Whatever value `relay` has, one of its edges loses what the other one wins. -/
theorem halfMoved_optimal : (ilpModel relayGraph relayModule
    ({ partition := {.work} } : Partition RelayFunction Empty)).Optimal halfMoved := by
  have hedges : ∀ p : Var RelayFunction × Edge RelayFunction ℚ, p ∈ edgeVariables relayGraph ↔
      p = (.edge .main 0, callEdge .main .relay 1) ∨
        p = (.edge .relay 0, callEdge .relay .work 1) := by
    simp [relayGraph, edgeVariables]
  refine ⟨feasible_iff.2 ⟨⟨fun f _ => ?_, fun f _ hf => ?_, fun f _ _ he => ?_⟩, fun p hp => ?_⟩,
    fun y hy => ?_⟩
  · cases f <;> norm_num [halfMoved]
  · rw [Finset.mem_singleton.1 hf]
    rfl
  · cases f <;> simp_all [excluded, relayModule, halfMoved]
  · rcases (hedges p).1 hp with rfl | rfl <;> (simp [halfMoved, callEdge]; norm_num)
  · obtain ⟨hallowed, hedge⟩ := feasible_iff.1 hy
    have hmain := hallowed.excluded_eq .main (by decide) (by decide) (by decide)
    have hwork := hallowed.secure_eq .work (by decide) (by decide)
    have hfirst := (hedge _ ((hedges _).2 (.inl rfl))).2
    have hsecond := (hedge _ ((hedges _).2 (.inr rfl))).2
    simp only [callEdge, hmain, hwork] at hfirst hsecond
    have habs := abs_le.1 (le_refl |0 - y (.node .relay)|)
    have habs' := abs_le.1 (le_refl |y (.node .relay) - 1|)
    show LinearProgram.eval (createObjective relayGraph) y ≤
      LinearProgram.eval (createObjective relayGraph) halfMoved
    rw [eval_relayGraph, eval_relayGraph]
    simp only [halfMoved]
    linarith

/-- The solution leaves `relay` outside, which is as good as moving it. -/
theorem relayGraph_moved_optimal :
    quality relayGraph {.relay, .work} ≤
      quality relayGraph (movedFunctions relayGraph halfMoved).toFinset := by
  have hwf : relayGraph.WellFormed := ⟨by decide, by decide, by decide⟩
  have hweight : ∀ node ∈ relayGraph.functionNodes, ∀ edge ∈ node.outEdges,
      0 ≤ edge.getWeight.getValue := by
    simp [relayGraph, getValue_callEdge]
  refine ((moved_optimal relayGraph hwf hweight relayModule _).2 _ halfMoved_optimal).2 _ ⟨?_, ?_⟩
  · intro f hf _
    exact Finset.mem_insert_of_mem hf
  · decide

end ILPOptimization

end Vazgen
