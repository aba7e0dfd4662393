import Vazgen.Analysis.PDG
import Mathlib.Tactic.Tauto

/-!
# The augmented call graph

A `Node` per function of LLVM's call graph, and an `Edge` per pair of caller and callee, stored
twice by value: in the caller's `outEdges` and in the callee's `inEdges`.  Pointers to nodes are
the nodes' functions.  Weights are over any type `R` of numbers.

**`exists_represents_create`**: the graph that `create` builds is given by a list of calls without
repetitions, which are the call records between two functions.

**`create_storesCalls`**: there is one node for each function, and the three places that a call is
stored in agree.
-/

namespace Vazgen

variable {F R : Type}

/-! ## Weights -/

/-- `WeightFactor::Factor` -/
inductive Factor where
  | sensitive
  | sensitiveRelated
  | size
  | callNum
  | argNum
  | argComplexity
  | retComplexity
  | unknown
deriving DecidableEq

structure WeightFactor (R : Type) where
  getFactor : Factor
  getValue : R
  getCoef : R

namespace WeightFactor

/-- The constructor: value `0`, coefficient `1`. -/
def new [Zero R] [One R] (factor : Factor) : WeightFactor R :=
  { getFactor := factor, getValue := 0, getCoef := 1 }

def isDefined (w : WeightFactor R) : Bool := w.getFactor != .unknown

def setValue (w : WeightFactor R) (value : R) : WeightFactor R := { w with getValue := value }

def setCoef (w : WeightFactor R) (coef : R) : WeightFactor R := { w with getCoef := coef }

def getWeight [Mul R] (w : WeightFactor R) : R := w.getValue * w.getCoef

end WeightFactor

/-- `Weight`: the vector of factors, indexed by `Factor`. -/
structure Weight (R : Type) where
  getFactor : Factor → WeightFactor R

namespace Weight

def new [Zero R] [One R] : Weight R := { getFactor := fun _ => WeightFactor.new .unknown }

def addFactor (w : Weight R) (factor : WeightFactor R) : Weight R :=
  { getFactor := fun i => if i = factor.getFactor then factor else w.getFactor i }

def hasFactor (w : Weight R) (factor : Factor) : Bool := (w.getFactor factor).isDefined

/-- The factors of the vector, `UNKNOWN` being its length. -/
def factors : List Factor :=
  [.sensitive, .sensitiveRelated, .size, .callNum, .argNum, .argComplexity, .retComplexity]

def getValue [Zero R] [Add R] [Mul R] (w : Weight R) : R :=
  factors.foldl (fun weight i =>
    if w.hasFactor i then weight + (w.getFactor i).getWeight else weight) 0

end Weight

/-! ## The graph -/

structure Edge (F R : Type) where
  getSource : F
  getSink : F
  getWeight : Weight R

/-- A call edge with a CALL_NUM weight. -/
def callEdge [Zero R] [One R] (source sink : F) (calls : R) : Edge F R :=
  { getSource := source
    getSink := sink
    getWeight := Weight.new.addFactor ((WeightFactor.new .callNum).setValue calls) }

structure Node (F R : Type) where
  getFunction : F
  inEdges : List (Edge F R) := []
  outEdges : List (Edge F R) := []
  children : Finset F := ∅
  getWeight : Weight R

/-- `CallGraph`: the nodes in the iteration order of `m_functionNodes`. -/
structure CallGraph (F R : Type) where
  functionNodes : List (Node F R) := []

namespace CallGraph

variable [DecidableEq F]

def getFunctionNode (graph : CallGraph F R) (f : F) : Option (Node F R) :=
  graph.functionNodes.find? fun node => node.getFunction = f

def hasFunctionNode (graph : CallGraph F R) (f : F) : Bool := (graph.getFunctionNode f).isSome

theorem hasFunctionNode_iff {graph : CallGraph F R} {f : F} :
    graph.hasFunctionNode f = true ↔ ∃ node ∈ graph.functionNodes, node.getFunction = f := by
  simp [hasFunctionNode, getFunctionNode, List.find?_isSome]

/-- The nodes are keyed by their functions, hold their own out-edges, and these lead to nodes. -/
structure WellFormed (graph : CallGraph F R) : Prop where
  nodup : (graph.functionNodes.map (·.getFunction)).Nodup
  source : ∀ node ∈ graph.functionNodes, ∀ edge ∈ node.outEdges, edge.getSource = node.getFunction
  sink_mem : ∀ node ∈ graph.functionNodes, ∀ edge ∈ node.outEdges,
    edge.getSink ∈ graph.functionNodes.map (·.getFunction)

theorem getFunctionNode_eq_some {graph : CallGraph F R} {f : F} {node : Node F R}
    (h : graph.getFunctionNode f = some node) :
    node ∈ graph.functionNodes ∧ node.getFunction = f :=
  ⟨List.mem_of_find?_eq_some h, by simpa using List.find?_some h⟩

theorem getFunctionNode_eq_of_nodup {graph : CallGraph F R}
    (hnodup : (graph.functionNodes.map (·.getFunction)).Nodup) {node : Node F R}
    (hnode : node ∈ graph.functionNodes) :
    graph.getFunctionNode node.getFunction = some node := by
  obtain ⟨nodes⟩ := graph
  unfold getFunctionNode
  dsimp only at hnode hnodup ⊢
  induction nodes with
  | nil => cases hnode
  | cons first nodes ih =>
    rw [List.map_cons, List.nodup_cons] at hnodup
    rw [List.find?_cons]
    by_cases hfirst : first.getFunction = node.getFunction
    · rcases List.mem_cons.1 hnode with rfl | hmem
      · simp
      · exact absurd (hfirst ▸ List.mem_map_of_mem hmem) hnodup.1
    · rcases List.mem_cons.1 hnode with rfl | hmem
      · exact absurd rfl hfirst
      · simpa [hfirst] using ih hnodup.2 hmem

theorem WellFormed.getFunctionNode_eq {graph : CallGraph F R} (h : graph.WellFormed)
    {node : Node F R} (hnode : node ∈ graph.functionNodes) :
    graph.getFunctionNode node.getFunction = some node :=
  getFunctionNode_eq_of_nodup h.nodup hnode

/-! ## Construction -/

end CallGraph

/-- `llvm::CallGraph`: the nodes with their functions, if they have one, and the functions of the
nodes that their call records lead to. -/
structure LLVMCallGraph (F : Type) where
  nodes : List (Option F × List (Option F))

/-- A call record leads from the node of `f` to the node of `g`. -/
def LLVMCallGraph.Records (graph : LLVMCallGraph F) (f g : F) : Prop :=
  ∃ node ∈ graph.nodes, node.1 = some f ∧ some g ∈ node.2

/-- `f` has a node, or a call record of a function leads to its node. -/
def LLVMCallGraph.HasFunction (graph : LLVMCallGraph F) (f : F) : Prop :=
  ∃ node ∈ graph.nodes, node.1 = some f ∨ ∃ caller, node.1 = some caller ∧ some f ∈ node.2

def Node.addOutEdge [DecidableEq F] (node : Node F R) (edge : Edge F R) : Node F R :=
  { node with
    outEdges := node.outEdges ++ [edge]
    children := insert edge.getSink node.children }

def Node.addInEdge (node : Node F R) (edge : Edge F R) : Node F R :=
  { node with inEdges := node.inEdges ++ [edge] }

namespace CallGraph

variable [DecidableEq F] [Zero R] [One R]

/-- A new node comes last in the iteration order. -/
def getOrAddNode (graph : CallGraph F R) (f : F) : CallGraph F R :=
  if graph.hasFunctionNode f then graph
  else { functionNodes := graph.functionNodes ++ [{ getFunction := f, getWeight := Weight.new }] }

def updateNode (graph : CallGraph F R) (f : F) (update : Node F R → Node F R) : CallGraph F R :=
  { functionNodes := graph.functionNodes.map fun node =>
      if node.getFunction = f then update node else node }

def newEdge (call : F × F) : Edge F R :=
  { getSource := call.1, getSink := call.2, getWeight := Weight.new }

/-- Both copies of an edge, unless its sink is a child already. -/
def connect (graph : CallGraph F R) (call : F × F) : CallGraph F R :=
  if (graph.getFunctionNode call.1).any fun node => call.2 ∈ node.children then graph
  else (graph.updateNode call.1 (·.addOutEdge (newEdge call))).updateNode call.2
    (·.addInEdge (newEdge call))

def addNodeConnections (source : F) (graph : CallGraph F R) (record : Option F) : CallGraph F R :=
  match record with
  | none => graph
  | some sink => (graph.getOrAddNode sink).connect (source, sink)

def create (llvmGraph : LLVMCallGraph F) : CallGraph F R :=
  llvmGraph.nodes.foldl (fun graph node =>
    match node.1 with
    | none => graph
    | some f => node.2.foldl (addNodeConnections f) (graph.getOrAddNode f)) {}

/-! ## What the graph represents -/

/-- The graph has an edge, in both copies, for each of the calls. -/
structure Represents (graph : CallGraph F R) (calls : List (F × F)) : Prop where
  nodup : (graph.functionNodes.map (·.getFunction)).Nodup
  distinct : calls.Nodup
  ends : ∀ call ∈ calls, call.1 ∈ graph.functionNodes.map (·.getFunction) ∧
    call.2 ∈ graph.functionNodes.map (·.getFunction)
  outEdges : ∀ node ∈ graph.functionNodes,
    node.outEdges = (calls.filter fun call => call.1 = node.getFunction).map newEdge
  inEdges : ∀ node ∈ graph.functionNodes,
    node.inEdges = (calls.filter fun call => call.2 = node.getFunction).map newEdge
  children : ∀ node ∈ graph.functionNodes, ∀ g,
    g ∈ node.children ↔ (node.getFunction, g) ∈ calls

variable {graph : CallGraph F R} {calls : List (F × F)}

theorem functions_getOrAddNode (f : F) {g : F} :
    g ∈ (graph.getOrAddNode f).functionNodes.map (·.getFunction) ↔
      g = f ∨ g ∈ graph.functionNodes.map (·.getFunction) := by
  unfold getOrAddNode
  split
  · next h =>
    have hf := List.mem_map.2 (hasFunctionNode_iff.1 h)
    exact ⟨.inr, fun hg => hg.elim (fun hgf => hgf ▸ hf) id⟩
  · rw [List.map_append, List.mem_append]
    exact (or_congr_right List.mem_singleton).trans or_comm

theorem Represents.getOrAddNode (h : graph.Represents calls) (f : F) :
    (graph.getOrAddNode f).Represents calls := by
  have hfunctions : ∀ g, g ∈ (graph.getOrAddNode f).functionNodes.map (·.getFunction) ↔
      g = f ∨ g ∈ graph.functionNodes.map (·.getFunction) := fun g => functions_getOrAddNode f
  unfold CallGraph.getOrAddNode at hfunctions ⊢
  split at hfunctions
  · next hnode => rwa [if_pos hnode]
  · next hnode =>
    rw [if_neg hnode]
    have hf : f ∉ graph.functionNodes.map (·.getFunction) := fun hf =>
      hnode (hasFunctionNode_iff.2 (List.mem_map.1 hf))
    have hfree : ∀ call ∈ calls, call.1 ≠ f ∧ call.2 ≠ f := fun call hc =>
      ⟨fun e => hf (e ▸ (h.ends call hc).1), fun e => hf (e ▸ (h.ends call hc).2)⟩
    have hmem : ∀ node ∈ graph.functionNodes ++ [{ getFunction := f, getWeight := Weight.new }],
        node ∈ graph.functionNodes ∨ node = { getFunction := f, getWeight := Weight.new } := by
      intro node hnode
      simpa using hnode
    refine
      { nodup := ?_
        distinct := h.distinct
        ends := fun call hc =>
          ⟨(hfunctions _).2 (.inr (h.ends call hc).1), (hfunctions _).2 (.inr (h.ends call hc).2)⟩
        outEdges := fun node hnode => ?_
        inEdges := fun node hnode => ?_
        children := fun node hnode g => ?_ }
    · rw [List.map_append]
      refine List.nodup_append.2 ⟨h.nodup, List.nodup_singleton _, fun a ha b hb hab => ?_⟩
      have hab : a = f := hab.trans (List.mem_singleton.1 hb)
      exact hf (hab ▸ ha)
    · rcases hmem node hnode with hnode | rfl
      · exact h.outEdges node hnode
      · have hnone : calls.filter (fun call => call.1 = f) = [] :=
          List.filter_eq_nil_iff.2 fun call hc => by simpa using (hfree call hc).1
        dsimp only
        rw [hnone]
        rfl
    · rcases hmem node hnode with hnode | rfl
      · exact h.inEdges node hnode
      · have hnone : calls.filter (fun call => call.2 = f) = [] :=
          List.filter_eq_nil_iff.2 fun call hc => by simpa using (hfree call hc).2
        dsimp only
        rw [hnone]
        rfl
    · rcases hmem node hnode with hnode | rfl
      · exact h.children node hnode g
      · exact iff_of_false (Finset.notMem_empty g) fun hc => hf (h.ends _ hc).1

/-- What both updates together do to a node. -/
def addCall (call : F × F) (node : Node F R) : Node F R :=
  { node with
    outEdges := node.outEdges ++ if node.getFunction = call.1 then [newEdge call] else []
    inEdges := node.inEdges ++ if node.getFunction = call.2 then [newEdge call] else []
    children := if node.getFunction = call.1 then insert call.2 node.children else node.children }

theorem updateNode_updateNode (graph : CallGraph F R) (call : F × F) :
    (graph.updateNode call.1 (·.addOutEdge (newEdge call))).updateNode call.2
        (·.addInEdge (newEdge call)) =
      { functionNodes := graph.functionNodes.map (addCall call) } := by
  have hnode : ∀ node : Node F R,
      (let node := if node.getFunction = call.1 then node.addOutEdge (newEdge call) else node
        if node.getFunction = call.2 then node.addInEdge (newEdge call) else node) =
      addCall call node := by
    rintro ⟨f, inEdges, outEdges, children, weight⟩
    unfold addCall
    by_cases h₁ : f = call.1
    · by_cases h₂ : f = call.2
      · simp [if_pos h₁, if_pos h₂, Node.addOutEdge, Node.addInEdge, newEdge]
      · simp [if_pos h₁, if_neg h₂, Node.addOutEdge, newEdge]
    · by_cases h₂ : f = call.2
      · simp [if_neg h₁, if_pos h₂, Node.addInEdge, newEdge]
      · simp [if_neg h₁, if_neg h₂]
  unfold updateNode
  dsimp only
  rw [List.map_map]
  exact congrArg _ (List.map_congr_left fun node _ => hnode node)

theorem functions_addCall (call : F × F) :
    (graph.functionNodes.map (addCall call)).map (·.getFunction) =
      graph.functionNodes.map (·.getFunction) := by
  rw [List.map_map]
  rfl

/-- A call that the graph does not represent yet, between functions that it has nodes for. -/
theorem Represents.snoc (h : graph.Represents calls) {call : F × F} (hnew : call ∉ calls)
    (hsource : call.1 ∈ graph.functionNodes.map (·.getFunction))
    (hsink : call.2 ∈ graph.functionNodes.map (·.getFunction)) :
    Represents { functionNodes := graph.functionNodes.map (addCall call) } (calls ++ [call]) := by
  refine
    { nodup := by
        rw [functions_addCall]
        exact h.nodup
      distinct := List.nodup_append.2 ⟨h.distinct, List.nodup_singleton _, fun a ha b hb hab =>
        hnew (List.mem_singleton.1 hb ▸ hab ▸ ha)⟩
      ends := fun c hc => ?_
      outEdges := List.forall_mem_map.2 fun node hnode => ?_
      inEdges := List.forall_mem_map.2 fun node hnode => ?_
      children := List.forall_mem_map.2 fun node hnode g => ?_ }
  · rw [functions_addCall]
    rcases List.mem_append.1 hc with hc | hc
    · exact h.ends c hc
    · rw [List.mem_singleton.1 hc]
      exact ⟨hsource, hsink⟩
  · show node.outEdges ++ (if node.getFunction = call.1 then [newEdge call] else []) =
      ((calls ++ [call]).filter fun c => c.1 = node.getFunction).map newEdge
    rw [h.outEdges node hnode, List.filter_append, List.map_append, List.filter_singleton]
    by_cases heq : node.getFunction = call.1
    · simp [heq]
    · simp [heq, Ne.symm heq]
  · show node.inEdges ++ (if node.getFunction = call.2 then [newEdge call] else []) =
      ((calls ++ [call]).filter fun c => c.2 = node.getFunction).map newEdge
    rw [h.inEdges node hnode, List.filter_append, List.map_append, List.filter_singleton]
    by_cases heq : node.getFunction = call.2
    · simp [heq]
    · simp [heq, Ne.symm heq]
  · simp only [addCall, List.mem_append, List.mem_singleton]
    by_cases heq : node.getFunction = call.1
    · rw [if_pos heq, Finset.mem_insert, h.children node hnode, heq, Prod.ext_iff]
      simp [or_comm]
    · rw [if_neg heq, h.children node hnode, Prod.ext_iff]
      simp [heq]

theorem Represents.connect (h : graph.Represents calls) (call : F × F)
    (hsource : call.1 ∈ graph.functionNodes.map (·.getFunction))
    (hsink : call.2 ∈ graph.functionNodes.map (·.getFunction)) :
    ∃ calls', (graph.connect call).Represents calls' ∧ (∀ c, c ∈ calls' ↔ c = call ∨ c ∈ calls) ∧
      (graph.connect call).functionNodes.map (·.getFunction) =
        graph.functionNodes.map (·.getFunction) := by
  have hchild : ((graph.getFunctionNode call.1).any fun node => call.2 ∈ node.children) = true ↔
      call ∈ calls := by
    obtain ⟨node, hnode, hf⟩ := List.mem_map.1 hsource
    have hget : graph.getFunctionNode call.1 = some node :=
      hf ▸ getFunctionNode_eq_of_nodup h.nodup hnode
    rw [hget, Option.any_some, decide_eq_true_iff, h.children node hnode, hf]
  unfold CallGraph.connect
  split
  · next hc =>
    have hmem := hchild.1 hc
    exact ⟨calls, h, fun c => ⟨.inr, fun hc => hc.elim (fun e => e ▸ hmem) id⟩, rfl⟩
  · next hc =>
    have hmem : call ∉ calls := fun hmem => hc (hchild.2 hmem)
    rw [updateNode_updateNode]
    exact ⟨calls ++ [call], h.snoc hmem hsource hsink, fun c => by simp [or_comm],
      functions_addCall call⟩

theorem Represents.addNodeConnections (h : graph.Represents calls) {source : F}
    (hsource : source ∈ graph.functionNodes.map (·.getFunction)) (record : Option F) :
    ∃ calls', (CallGraph.addNodeConnections source graph record).Represents calls' ∧
      (∀ f g, (f, g) ∈ calls' ↔ (f, g) ∈ calls ∨ f = source ∧ record = some g) ∧
      source ∈ (CallGraph.addNodeConnections source graph record).functionNodes.map (·.getFunction) := by
  cases record with
  | none => exact ⟨calls, h, fun f g => by simp, hsource⟩
  | some sink =>
    obtain ⟨calls', h', hcalls, hfunctions⟩ := (h.getOrAddNode sink).connect
      (source, sink) ((functions_getOrAddNode sink).2 (.inr hsource))
      ((functions_getOrAddNode sink).2 (.inl rfl))
    refine ⟨calls', h', fun f g => ?_, ?_⟩
    · rw [hcalls, Prod.mk.injEq, or_comm, Option.some.injEq, eq_comm (a := g)]
    · exact hfunctions ▸ (functions_getOrAddNode sink).2 (.inr hsource)

/-- All call records of a function. -/
theorem Represents.addRecords {source : F} (records : List (Option F)) :
    ∀ {graph : CallGraph F R} {calls : List (F × F)}, graph.Represents calls →
      source ∈ graph.functionNodes.map (·.getFunction) →
      ∃ calls', (records.foldl (CallGraph.addNodeConnections source) graph).Represents calls' ∧
        ∀ f g, (f, g) ∈ calls' ↔ (f, g) ∈ calls ∨ f = source ∧ some g ∈ records := by
  induction records with
  | nil => exact fun h _ => ⟨_, h, fun f g => by simp⟩
  | cons record records ih =>
    intro graph calls h hsource
    obtain ⟨calls₁, h₁, hcalls₁, hsource₁⟩ := h.addNodeConnections hsource record
    obtain ⟨calls', h', hcalls'⟩ := ih h₁ hsource₁
    refine ⟨calls', h', fun f g => ?_⟩
    rw [hcalls', hcalls₁, List.mem_cons, eq_comm (a := some g)]
    tauto

/-- **The graph that `create` builds** has an edge, in both copies, for each pair of functions with a
call record. -/
theorem exists_represents_create (llvmGraph : LLVMCallGraph F) :
    ∃ calls, (create llvmGraph : CallGraph F R).Represents calls ∧
      ∀ f g, (f, g) ∈ calls ↔ llvmGraph.Records f g := by
  have hnodes : ∀ (nodes : List (Option F × List (Option F))) (graph : CallGraph F R)
      (calls : List (F × F)), graph.Represents calls →
      ∃ calls', (nodes.foldl (fun graph node =>
          match node.1 with
          | none => graph
          | some f => node.2.foldl (CallGraph.addNodeConnections f) (graph.getOrAddNode f))
            graph).Represents calls' ∧
        ∀ f g, (f, g) ∈ calls' ↔
          (f, g) ∈ calls ∨ ∃ node ∈ nodes, node.1 = some f ∧ some g ∈ node.2 := by
    intro nodes
    induction nodes with
    | nil => exact fun graph calls h => ⟨calls, h, fun f g => by simp⟩
    | cons node nodes ih =>
      intro graph calls h
      obtain ⟨key, records⟩ := node
      rw [List.foldl_cons]
      cases key with
      | none =>
        obtain ⟨calls', h', hcalls'⟩ := ih graph calls h
        exact ⟨calls', h', fun f g => by simp [hcalls']⟩
      | some f =>
        obtain ⟨calls₁, h₁, hcalls₁⟩ := Represents.addRecords records (h.getOrAddNode f)
          ((functions_getOrAddNode f).2 (.inl rfl))
        obtain ⟨calls', h', hcalls'⟩ := ih _ calls₁ h₁
        refine ⟨calls', h', fun f' g => ?_⟩
        rw [hcalls', hcalls₁, List.exists_mem_cons_iff, Option.some.injEq, eq_comm (a := f)]
        tauto
  have hempty : (({} : CallGraph F R)).Represents [] :=
    { nodup := List.nodup_nil
      distinct := List.nodup_nil
      ends := fun call hc => by cases hc
      outEdges := fun node hnode => by cases hnode
      inEdges := fun node hnode => by cases hnode
      children := fun node hnode => by cases hnode }
  obtain ⟨calls, h, hcalls⟩ := hnodes llvmGraph.nodes {} [] hempty
  exact ⟨calls, h, fun f g => by rw [hcalls]; simp [LLVMCallGraph.Records]⟩

theorem functions_connect (graph : CallGraph F R) (call : F × F) :
    (graph.connect call).functionNodes.map (·.getFunction) =
      graph.functionNodes.map (·.getFunction) := by
  unfold connect
  split
  · rfl
  · rw [updateNode_updateNode, functions_addCall]

/-- The nodes after all call records of a function. -/
theorem functions_addRecords {source f : F} (records : List (Option F)) (graph : CallGraph F R) :
    f ∈ (records.foldl (addNodeConnections source) graph).functionNodes.map (·.getFunction) ↔
      f ∈ graph.functionNodes.map (·.getFunction) ∨ some f ∈ records := by
  induction records generalizing graph with
  | nil => simp
  | cons record records ih =>
    rw [List.foldl_cons, ih, List.mem_cons]
    cases record with
    | none => simp [addNodeConnections]
    | some sink =>
      unfold addNodeConnections
      dsimp only
      rw [functions_connect, functions_getOrAddNode, Option.some.injEq]
      tauto

/-- `create` makes nodes for the functions of LLVM's graph. -/
theorem functions_create (llvmGraph : LLVMCallGraph F) (f : F) :
    f ∈ (create llvmGraph : CallGraph F R).functionNodes.map (·.getFunction) ↔
      llvmGraph.HasFunction f := by
  have hnodes : ∀ (nodes : List (Option F × List (Option F))) (graph : CallGraph F R),
      f ∈ (nodes.foldl (fun graph node =>
          match node.1 with
          | none => graph
          | some f => node.2.foldl (addNodeConnections f) (graph.getOrAddNode f))
            graph).functionNodes.map (·.getFunction) ↔
        f ∈ graph.functionNodes.map (·.getFunction) ∨ ∃ node ∈ nodes,
          node.1 = some f ∨ ∃ caller, node.1 = some caller ∧ some f ∈ node.2 := by
    intro nodes
    induction nodes with
    | nil => simp
    | cons node nodes ih =>
      intro graph
      obtain ⟨key, records⟩ := node
      rw [List.foldl_cons, ih, List.exists_mem_cons_iff, ← or_assoc]
      refine or_congr_left ?_
      cases key with
      | none => simp
      | some g =>
        dsimp only
        rw [functions_addRecords, functions_getOrAddNode]
        simp only [Option.some.injEq, eq_comm (a := g)]
        tauto
  refine (hnodes llvmGraph.nodes {}).trans ?_
  simp [LLVMCallGraph.HasFunction]

/-- A graph with an edge for each call is well formed. -/
theorem Represents.wellFormed (h : graph.Represents calls) : graph.WellFormed where
  nodup := h.nodup
  source node hnode edge hedge := by
    rw [h.outEdges node hnode] at hedge
    obtain ⟨call, hc, rfl⟩ := List.mem_map.1 hedge
    show call.1 = node.getFunction
    simpa using (List.mem_filter.1 hc).2
  sink_mem node hnode edge hedge := by
    rw [h.outEdges node hnode] at hedge
    obtain ⟨call, hc, rfl⟩ := List.mem_map.1 hedge
    exact (h.ends call (List.mem_filter.1 hc).1).2

/-- The graph has one node for each function of LLVM's graph, and stores each pair of a caller and
a callee three times: once among the caller's children, once as an out-edge and once as an in-edge. -/
structure StoresCalls (graph : CallGraph F R) (llvmGraph : LLVMCallGraph F) : Prop where
  nodup : (graph.functionNodes.map (·.getFunction)).Nodup
  functions : ∀ f, f ∈ graph.functionNodes.map (·.getFunction) ↔ llvmGraph.HasFunction f
  children : ∀ u v, llvmGraph.Records u v ↔
    ∃ node ∈ graph.functionNodes, node.getFunction = u ∧ v ∈ node.children
  outEdges : ∀ u v, llvmGraph.Records u v ↔
    ∃ node ∈ graph.functionNodes, node.getFunction = u ∧ ∃ edge ∈ node.outEdges, edge.getSink = v
  inEdges : ∀ u v, llvmGraph.Records u v ↔
    ∃ node ∈ graph.functionNodes, node.getFunction = v ∧ ∃ edge ∈ node.inEdges, edge.getSource = u
  outEdges_once : ∀ node ∈ graph.functionNodes, (node.outEdges.map (·.getSink)).Nodup
  inEdges_once : ∀ node ∈ graph.functionNodes, (node.inEdges.map (·.getSource)).Nodup
  outEdges_source : ∀ node ∈ graph.functionNodes, ∀ edge ∈ node.outEdges,
    edge.getSource = node.getFunction
  inEdges_sink : ∀ node ∈ graph.functionNodes, ∀ edge ∈ node.inEdges,
    edge.getSink = node.getFunction

/-- A call stands among the out-edges of its source and the in-edges of its sink. -/
theorem Represents.mem_edges (h : graph.Represents calls) (u v : F) :
    ((u, v) ∈ calls ↔ ∃ node ∈ graph.functionNodes, node.getFunction = u ∧
      ∃ edge ∈ node.outEdges, edge.getSink = v) ∧
    ((u, v) ∈ calls ↔ ∃ node ∈ graph.functionNodes, node.getFunction = v ∧
      ∃ edge ∈ node.inEdges, edge.getSource = u) := by
  refine ⟨⟨fun hc => ?_, ?_⟩, ⟨fun hc => ?_, ?_⟩⟩
  · obtain ⟨node, hnode, hf⟩ := List.mem_map.1 (h.ends _ hc).1
    refine ⟨node, hnode, hf, newEdge (u, v), ?_, rfl⟩
    rw [h.outEdges node hnode]
    exact List.mem_map_of_mem (List.mem_filter.2 ⟨hc, decide_eq_true hf.symm⟩)
  · rintro ⟨node, hnode, rfl, edge, hedge, rfl⟩
    rw [h.outEdges node hnode] at hedge
    obtain ⟨⟨f, g⟩, hc, rfl⟩ := List.mem_map.1 hedge
    obtain ⟨hc, hf⟩ := List.mem_filter.1 hc
    cases of_decide_eq_true hf
    exact hc
  · obtain ⟨node, hnode, hf⟩ := List.mem_map.1 (h.ends _ hc).2
    refine ⟨node, hnode, hf, newEdge (u, v), ?_, rfl⟩
    rw [h.inEdges node hnode]
    exact List.mem_map_of_mem (List.mem_filter.2 ⟨hc, decide_eq_true hf.symm⟩)
  · rintro ⟨node, hnode, rfl, edge, hedge, rfl⟩
    rw [h.inEdges node hnode] at hedge
    obtain ⟨⟨f, g⟩, hc, rfl⟩ := List.mem_map.1 hedge
    obtain ⟨hc, hf⟩ := List.mem_filter.1 hc
    cases of_decide_eq_true hf
    exact hc

/-- No two edges of a node lead to or come from the same function. -/
theorem Represents.edges_once (h : graph.Represents calls) {node : Node F R}
    (hnode : node ∈ graph.functionNodes) :
    (node.outEdges.map (·.getSink)).Nodup ∧ (node.inEdges.map (·.getSource)).Nodup := by
  constructor
  · rw [h.outEdges node hnode, List.map_map]
    refine (h.distinct.filter _).map_on fun a ha b hb hab => Prod.ext ?_ hab
    have hfa := of_decide_eq_true (List.mem_filter.1 ha).2
    have hfb := of_decide_eq_true (List.mem_filter.1 hb).2
    exact hfa.trans hfb.symm
  · rw [h.inEdges node hnode, List.map_map]
    refine (h.distinct.filter _).map_on fun a ha b hb hab => Prod.ext hab ?_
    have hfa := of_decide_eq_true (List.mem_filter.1 ha).2
    have hfb := of_decide_eq_true (List.mem_filter.1 hb).2
    exact hfa.trans hfb.symm

/-- **The augmented call graph stores LLVM's call graph**, without repetitions. -/
theorem create_storesCalls (llvmGraph : LLVMCallGraph F) :
    (create llvmGraph : CallGraph F R).StoresCalls llvmGraph := by
  obtain ⟨calls, h, hcalls⟩ := exists_represents_create (R := R) llvmGraph
  refine
    { nodup := h.nodup
      functions := functions_create llvmGraph
      children := fun u v => ?_
      outEdges := fun u v => (hcalls u v).symm.trans (h.mem_edges u v).1
      inEdges := fun u v => (hcalls u v).symm.trans (h.mem_edges u v).2
      outEdges_once := fun node hnode => (h.edges_once hnode).1
      inEdges_once := fun node hnode => (h.edges_once hnode).2
      outEdges_source := h.wellFormed.source
      inEdges_sink := fun node hnode edge hedge => ?_ }
  · rw [← hcalls]
    constructor
    · intro hc
      obtain ⟨node, hnode, hf⟩ := List.mem_map.1 (h.ends _ hc).1
      refine ⟨node, hnode, hf, (h.children node hnode v).2 ?_⟩
      rw [hf]
      exact hc
    · rintro ⟨node, hnode, rfl, hv⟩
      exact (h.children node hnode v).1 hv
  · rw [h.inEdges node hnode] at hedge
    obtain ⟨call, hc, rfl⟩ := List.mem_map.1 hedge
    exact of_decide_eq_true (List.mem_filter.1 hc).2

end CallGraph

end Vazgen
