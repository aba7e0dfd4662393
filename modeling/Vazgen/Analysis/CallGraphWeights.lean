import Vazgen.Analysis.CallGraph
import Vazgen.Analysis.Partition
import Vazgen.Analysis.Numbers
import Vazgen.Lib.Worklist
import Mathlib.Algebra.Field.Rat

/-!
# The weights of the call graph

`assignWeights` adds the factors to the nodes and edges of the graph, and then normalises the values
that it has collected pointers to.  The arithmetic is any type `R` with the operations it uses.

**`create_edgesAgree_iff`**: the two copies of the edges agree exactly if there is no edge.  The
factors of arguments and return values are added to the copies among the `inEdges` only.
-/

namespace Vazgen

open Worklist

variable {F G V N R : Type}

/-! ## Algorithm -/

/-- `LOOP_COST` -/
def loopCost : Nat := 1000

/-- The value of an `int`. -/
def wrapInt (x : Int) : Int := x.bmod (2 ^ 32)

mutual

def getTypeComplexity : LLVMType → Int
  | .struct elements => addTypeComplexities 0 elements
  | .array numElements elementType => wrapInt (numElements * getTypeComplexity elementType)
  | .vector numElements elementType => wrapInt (numElements * getTypeComplexity elementType)
  | .pointer => 0
  | .function => 0
  | .void | .integer _ | .float | .double => 1

/-- A loop over types that adds their complexities. -/
def addTypeComplexities (complexity : Int) : List LLVMType → Int
  | [] => complexity
  | type :: types => addTypeComplexities (wrapInt (complexity + getTypeComplexity type)) types

end

def getArgComplexity (M : Module F G V) (f : F) : Int := addTypeComplexities 0 (M.argTypes f)

def Weight.setValue (w : Weight R) (factor : Factor) (value : R) : Weight R :=
  { getFactor := fun i => if i = factor then (w.getFactor i).setValue value else w.getFactor i }

def Edge.addFactor (edge : Edge F R) (factor : WeightFactor R) : Edge F R :=
  { edge with getWeight := edge.getWeight.addFactor factor }

namespace WeightAssigningHelper

/-- A pointer to the value of a factor, of a node's weight or of the weight of one of its
in-edges. -/
inductive WeightRef (F : Type) where
  | node (f : F)
  | inEdge (f : F) (index : Nat)

/-- The graph, and the pointers collected for each factor. -/
structure State (F R : Type) where
  callGraph : CallGraph F R
  factorWeights : Factor → List (WeightRef F) := fun _ => []

def State.collect (s : State F R) (factor : Factor) (refs : List (WeightRef F)) : State F R :=
  { s with factorWeights := fun i =>
      if i = factor then s.factorWeights i ++ refs else s.factorWeights i }

section Model

variable [DecidableEq F]

/-- One call site of the loop of `collectFunctionCallSiteData`. -/
def countCallSite (loopInfoGetter : LoopInfoGetter F V) (calls : F → Option Nat)
    (callSite : CallSite F V) : F → Option Nat :=
  let caller := callSite.getCaller
  let count := (calls caller).getD 0
  let inLoop := match loopInfoGetter caller with
    | none => false
    | some getLoopFor => getLoopFor callSite.getParent
  Function.update calls caller (some
    (if inLoop then loopCost else if count = posInfinity then count else count + 1))

/-- `collectFunctionCallSiteData`: the numbers of calls of a function by their callers, `none` for a
function that has no graph. -/
def collectFunctionCallSiteData (pdg : PDG F G V N) (loopInfoGetter : LoopInfoGetter F V) (f : F) :
    Option (F → Option Nat) :=
  if pdg.hasFunctionPDG f then
    some ((pdg.getCallSites f).foldl (countCallSite loopInfoGetter) fun _ => none)
  else none

/-- Add a factor to a node; `none` when there is no such node. -/
def addNodeFactor (f : F) (factor : WeightFactor R) (s : State F R) : Option (State F R) :=
  if s.callGraph.hasFunctionNode f then
    some ({ s with callGraph := s.callGraph.updateNode f fun node =>
      { node with getWeight := node.getWeight.addFactor factor } }.collect factor.getFactor [.node f])
  else none

def addFactorToInEdges (factor : F → WeightFactor R) (node : Node F R) : Node F R :=
  { node with inEdges := node.inEdges.map fun edge => edge.addFactor (factor edge.getSource) }

/-- A loop over all in-edges that adds a factor to each: for each function one for each caller, or
none at all. -/
def addInEdgeFactor (kind : Factor) (factorOf : F → Option (F → WeightFactor R)) (s : State F R) :
    State F R :=
  let nodes := s.callGraph.functionNodes.map fun node =>
    match factorOf node.getFunction with
    | none => node
    | some factor => addFactorToInEdges factor node
  let refs := s.callGraph.functionNodes.flatMap fun node =>
    if (factorOf node.getFunction).isSome then
      (List.range node.inEdges.length).map (.inEdge node.getFunction)
    else []
  { s with callGraph := { functionNodes := nodes } }.collect kind refs

variable [Zero R] [One R] [IntCast R]

def assignSensitiveNodeWeights (order : IterationOrder F) (secure : Partition F G) (s : State F R) :
    Option (State F R) :=
  (order.list secure.partition).foldlM (fun s f =>
    addNodeFactor f ((WeightFactor.new .sensitive).setValue ((posInfinity : Int) : R)) s) s

/-- The value is the quotient of two `int`s. -/
def relatedFactor (level : Int) : WeightFactor R :=
  ((WeightFactor.new .sensitiveRelated).setCoef ((loopCost : Int) : R)).setValue
    ((if level = 0 then Int.tdiv 1 loopCost else Int.tdiv 1 level : Int) : R)

def assignSensitiveRelatedNodeWeights (order : IterationOrder F) (secure : Partition F G)
    (s : State F R) : Option (State F R) :=
  (order.list secure.relatedFunctions.keys).foldlM (fun s f =>
    addNodeFactor f (relatedFactor ((secure.relatedFunctions.lookup f).getD 0)) s) s

def assignNodeSizeWeights (M : Module F G V) (s : State F R) : Option (State F R) :=
  (s.callGraph.functionNodes.map (·.getFunction)).foldlM (fun s f =>
    addNodeFactor f ((WeightFactor.new .size).setValue ((M.functionSize f : Int) : R)) s) s

def callNumFactor (calls : Nat) : WeightFactor R :=
  (WeightFactor.new .callNum).setValue ((calls : Int) : R)

/-- Every in-edge of a function with call site data has its caller among them; the source
dereferences the end of the map otherwise. -/
def callersKnown (callSiteData : F → Option (F → Option Nat)) (graph : CallGraph F R) : Bool :=
  graph.functionNodes.all fun node => (callSiteData node.getFunction).all fun calls =>
    node.inEdges.all fun edge => (calls edge.getSource).isSome

/-- The second loop of `assignCallNumWeights`; it collects no pointers. -/
def addOutEdgeCallNum (callSiteData : F → Option (F → Option Nat)) (graph : CallGraph F R) :
    CallGraph F R :=
  { functionNodes := graph.functionNodes.map fun node =>
      { node with outEdges := node.outEdges.map fun edge =>
          match (callSiteData edge.getSink).bind fun calls => calls node.getFunction with
          | none => edge
          | some calls => edge.addFactor (callNumFactor calls) } }

def assignCallNumWeights (pdg : PDG F G V N) (loopInfoGetter : LoopInfoGetter F V) (s : State F R) :
    Option (State F R) :=
  let callSiteData := collectFunctionCallSiteData pdg loopInfoGetter
  if callersKnown callSiteData s.callGraph then
    let s := addInEdgeFactor .callNum (fun f => (callSiteData f).map fun calls caller =>
      callNumFactor ((calls caller).getD 0)) s
    some { s with callGraph := addOutEdgeCallNum callSiteData s.callGraph }
  else none

def assignArgWeights (M : Module F G V) (s : State F R) : State F R :=
  addInEdgeFactor .argComplexity (fun f => some fun _ =>
      (WeightFactor.new .argComplexity).setValue (getArgComplexity M f : R))
    (addInEdgeFactor .argNum (fun f => some fun _ =>
      (WeightFactor.new .argNum).setValue (((M.argTypes f).length : Int) : R)) s)

def assignRetValueWeights (M : Module F G V) (s : State F R) : State F R :=
  addInEdgeFactor .retComplexity (fun f => some fun _ =>
    (WeightFactor.new .retComplexity).setValue (getTypeComplexity (M.getReturnType f) : R)) s

section Normalize

variable [Sub R] [Div R] [LT R] [DecidableLT R] [DecidableEq R]

/-- The value that a pointer points to; the pointers that are collected point to one. -/
def WeightRef.get? (graph : CallGraph F R) (factor : Factor) : WeightRef F → Option R
  | .node f => (graph.getFunctionNode f).map fun node => (node.getWeight.getFactor factor).getValue
  | .inEdge f i => ((graph.getFunctionNode f).bind fun node => node.inEdges[i]?).map fun edge =>
    (edge.getWeight.getFactor factor).getValue

def WeightRef.set (graph : CallGraph F R) (factor : Factor) (value : R) :
    WeightRef F → CallGraph F R
  | .node f => graph.updateNode f fun node =>
    { node with getWeight := node.getWeight.setValue factor value }
  | .inEdge f i => graph.updateNode f fun node =>
    { node with inEdges := node.inEdges.modify i fun edge =>
        { edge with getWeight := edge.getWeight.setValue factor value } }

/-- `normalizeWeights` on the values of one factor. -/
def normalizeFactor (refs : List (WeightRef F)) (factor : Factor) (graph : CallGraph F R) :
    CallGraph F R :=
  match refs.filterMap (WeightRef.get? graph factor) with
  | [] => graph -- the factor has no entry
  | first :: values =>
    let min := values.foldl (fun min value => if value < min then value else min) first
    let max := values.foldl (fun max value => if max < value then value else max) first
    let diff := max - min
    refs.foldl (fun graph ref =>
      match ref.get? graph factor with
      | none => graph
      | some value => ref.set graph factor (if diff = 0 then min else (value - min) / diff)) graph

def normalizeWeights (s : State F R) : CallGraph F R :=
  Weight.factors.foldl (fun graph factor =>
    normalizeFactor (s.factorWeights factor) factor graph) s.callGraph

/-- `CallGraph::assignWeights`; the insecure partition is not read. -/
def assignWeights (M : Module F G V) (pdg : PDG F G V N) (loopInfoGetter : LoopInfoGetter F V)
    (order : IterationOrder F) (secure : Partition F G) (graph : CallGraph F R) :
    Option (CallGraph F R) := do
  let s ← assignSensitiveNodeWeights order secure { callGraph := graph }
  let s ← assignSensitiveRelatedNodeWeights order secure s
  let s ← assignNodeSizeWeights M s
  let s ← assignCallNumWeights pdg loopInfoGetter s
  some (normalizeWeights (assignRetValueWeights M (assignArgWeights M s)))

end Normalize

end Model

/-! ## What the loops keep -/

/-- The edge has the same ends, and ARG_NUM if it had it before. -/
structure EdgeKept (edge edge' : Edge F R) : Prop where
  source : edge'.getSource = edge.getSource
  sink : edge'.getSink = edge.getSink
  argNum : edge.getWeight.hasFactor .argNum = true → edge'.getWeight.hasFactor .argNum = true

/-- The node is of the same function and has the same edges; its out-edges have got no ARG_NUM. -/
structure NodeKept (node node' : Node F R) : Prop where
  function : node'.getFunction = node.getFunction
  inEdges : List.Forall₂ EdgeKept node.inEdges node'.inEdges
  outEdges : List.Forall₂ (fun edge edge' => EdgeKept edge edge' ∧
    edge'.getWeight.hasFactor .argNum = edge.getWeight.hasFactor .argNum) node.outEdges node'.outEdges

def GraphKept (graph graph' : CallGraph F R) : Prop :=
  List.Forall₂ NodeKept graph.functionNodes graph'.functionNodes

section Kept

variable {edge edge' : Edge F R} {node node' : Node F R} {graph graph' graph'' : CallGraph F R}

theorem forall₂_trans {α : Type} {r : α → α → Prop} (hr : ∀ a b c, r a b → r b c → r a c) :
    ∀ {l₁ l₂ l₃ : List α}, List.Forall₂ r l₁ l₂ → List.Forall₂ r l₂ l₃ → List.Forall₂ r l₁ l₃
  | _, _, _, .nil, .nil => .nil
  | _, _, _, .cons h₁ t₁, .cons h₂ t₂ => .cons (hr _ _ _ h₁ h₂) (forall₂_trans hr t₁ t₂)

theorem EdgeKept.refl (edge : Edge F R) : EdgeKept edge edge := ⟨rfl, rfl, id⟩

theorem EdgeKept.trans {e₁ e₂ e₃ : Edge F R} (h₁ : EdgeKept e₁ e₂) (h₂ : EdgeKept e₂ e₃) :
    EdgeKept e₁ e₃ :=
  ⟨h₂.source.trans h₁.source, h₂.sink.trans h₁.sink, fun h => h₂.argNum (h₁.argNum h)⟩

theorem NodeKept.of_edges (hf : node'.getFunction = node.getFunction)
    (hin : List.Forall₂ EdgeKept node.inEdges node'.inEdges)
    (hout : node'.outEdges = node.outEdges) : NodeKept node node' :=
  ⟨hf, hin, hout ▸ List.forall₂_same.2 fun edge _ => ⟨.refl edge, rfl⟩⟩

theorem NodeKept.refl (node : Node F R) : NodeKept node node :=
  .of_edges rfl (List.forall₂_same.2 fun edge _ => .refl edge) rfl

theorem NodeKept.trans {n₁ n₂ n₃ : Node F R} (h₁ : NodeKept n₁ n₂) (h₂ : NodeKept n₂ n₃) :
    NodeKept n₁ n₃ :=
  ⟨h₂.function.trans h₁.function,
    forall₂_trans (r := EdgeKept) (fun _ _ _ => EdgeKept.trans) h₁.inEdges h₂.inEdges,
    forall₂_trans (fun _ _ _ a b => ⟨a.1.trans b.1, b.2.trans a.2⟩) h₁.outEdges h₂.outEdges⟩

theorem GraphKept.refl (graph : CallGraph F R) : GraphKept graph graph :=
  List.forall₂_same.2 fun node _ => .refl node

theorem GraphKept.trans (h₁ : GraphKept graph graph') (h₂ : GraphKept graph' graph'') :
    GraphKept graph graph'' :=
  forall₂_trans (r := NodeKept) (fun _ _ _ => NodeKept.trans) h₁ h₂

theorem GraphKept.map {update : Node F R → Node F R} (h : ∀ node, NodeKept node (update node)) :
    GraphKept graph { functionNodes := graph.functionNodes.map update } :=
  List.forall₂_map_right_iff.2 (List.forall₂_same.2 fun node _ => h node)

theorem hasFactor_addFactor {w : Weight R} {factor : WeightFactor R} {i : Factor} :
    (w.addFactor factor).hasFactor i = if i = factor.getFactor then factor.isDefined
      else w.hasFactor i := by
  unfold Weight.hasFactor Weight.addFactor
  dsimp only
  split <;> rfl

theorem hasFactor_setValue (w : Weight R) (factor : Factor) (value : R) (i : Factor) :
    (w.setValue factor value).hasFactor i = w.hasFactor i := by
  unfold Weight.hasFactor Weight.setValue
  dsimp only
  split <;> rfl

theorem edgeKept_addFactor {factor : WeightFactor R} (hfactor : factor.isDefined = true) :
    EdgeKept edge (edge.addFactor factor) := by
  refine ⟨rfl, rfl, fun h => ?_⟩
  rw [Edge.addFactor, hasFactor_addFactor]
  split
  · exact hfactor
  · exact h

theorem nodeKept_addFactorToInEdges {factor : F → WeightFactor R}
    (hfactor : ∀ f, (factor f).isDefined = true) (node : Node F R) :
    NodeKept node (addFactorToInEdges factor node) := by
  refine .of_edges rfl ?_ rfl
  exact List.forall₂_map_right_iff.2 (List.forall₂_same.2 fun edge _ =>
    edgeKept_addFactor (hfactor edge.getSource))

theorem graphKept_addInEdgeFactor (kind : Factor) (factorOf : F → Option (F → WeightFactor R))
    (hfactor : ∀ f factor, factorOf f = some factor → ∀ g, (factor g).isDefined = true)
    (s : State F R) : GraphKept s.callGraph (addInEdgeFactor kind factorOf s).callGraph := by
  refine GraphKept.map fun node => ?_
  split
  · exact .refl node
  · next factor h => exact nodeKept_addFactorToInEdges (hfactor _ _ h) node

theorem graphKept_addOutEdgeCallNum [Zero R] [One R] [IntCast R]
    (callSiteData : F → Option (F → Option Nat)) (graph : CallGraph F R) :
    GraphKept graph (addOutEdgeCallNum callSiteData graph) := by
  refine GraphKept.map fun node => ⟨rfl, List.forall₂_same.2 fun edge _ => .refl edge, ?_⟩
  refine List.forall₂_map_right_iff.2 (List.forall₂_same.2 fun edge _ => ?_)
  split
  · exact ⟨.refl edge, rfl⟩
  · next calls _ =>
    refine ⟨edgeKept_addFactor rfl, ?_⟩
    rw [Edge.addFactor, hasFactor_addFactor]
    exact if_neg (fun h => by cases h)

variable [DecidableEq F]

theorem graphKept_updateNode (f : F) {update : Node F R → Node F R}
    (h : ∀ node, NodeKept node (update node)) : GraphKept graph (graph.updateNode f update) := by
  refine GraphKept.map fun node => ?_
  split
  · exact h node
  · exact .refl node

theorem graphKept_addNodeFactor {f : F} {factor : WeightFactor R} {s s' : State F R}
    (h : addNodeFactor f factor s = some s') : GraphKept s.callGraph s'.callGraph := by
  unfold addNodeFactor at h
  split at h
  · cases h
    refine graphKept_updateNode f fun node => .of_edges rfl ?_ rfl
    exact List.forall₂_same.2 fun edge _ => .refl edge
  · cases h

omit [DecidableEq F] in
theorem GraphKept.functions (h : GraphKept graph graph') :
    graph'.functionNodes.map (·.getFunction) = graph.functionNodes.map (·.getFunction) := by
  obtain ⟨nodes⟩ := graph
  obtain ⟨nodes'⟩ := graph'
  unfold GraphKept at h
  dsimp only at h ⊢
  induction h with
  | nil => rfl
  | cons hnode _ ih => rw [List.map_cons, List.map_cons, hnode.function, ih]

theorem GraphKept.hasFunctionNode (h : GraphKept graph graph') (f : F) :
    graph'.hasFunctionNode f = graph.hasFunctionNode f := by
  rw [Bool.eq_iff_iff, CallGraph.hasFunctionNode_iff, CallGraph.hasFunctionNode_iff,
    ← List.mem_map, ← List.mem_map, h.functions]

theorem exists_left_of_forall₂ {α β : Type} {r : α → β → Prop} {l : List α} {l' : List β}
    (h : List.Forall₂ r l l') {b : β} (hb : b ∈ l') : ∃ a ∈ l, r a b := by
  induction h with
  | nil => cases hb
  | @cons a b' l l' hab _ ih =>
    rcases List.mem_cons.1 hb with rfl | hb
    · exact ⟨a, List.mem_cons_self, hab⟩
    · obtain ⟨c, hc, hcb⟩ := ih hb
      exact ⟨c, List.mem_cons_of_mem a hc, hcb⟩

theorem exists_right_of_forall₂ {α β : Type} {r : α → β → Prop} {l : List α} {l' : List β}
    (h : List.Forall₂ r l l') {a : α} (ha : a ∈ l) : ∃ b ∈ l', r a b :=
  exists_left_of_forall₂ (r := fun b a => r a b) h.flip ha

omit [DecidableEq F] in
theorem GraphKept.wellFormed (h : GraphKept graph graph') (hwf : graph.WellFormed) :
    graph'.WellFormed := by
  have hout : ∀ node' ∈ graph'.functionNodes, ∀ edge' ∈ node'.outEdges,
      ∃ node ∈ graph.functionNodes, ∃ edge ∈ node.outEdges,
        NodeKept node node' ∧ EdgeKept edge edge' := by
    intro node' hnode' edge' hedge'
    obtain ⟨node, hnode, hn⟩ := exists_left_of_forall₂ h hnode'
    obtain ⟨edge, hedge, he⟩ := exists_left_of_forall₂ hn.outEdges hedge'
    exact ⟨node, hnode, edge, hedge, hn, he.1⟩
  refine ⟨h.functions ▸ hwf.nodup, fun node' hnode' edge' hedge' => ?_,
    fun node' hnode' edge' hedge' => ?_⟩
  · obtain ⟨node, hnode, edge, hedge, hn, he⟩ := hout node' hnode' edge' hedge'
    rw [he.source, hn.function]
    exact hwf.source node hnode edge hedge
  · obtain ⟨node, hnode, edge, hedge, -, he⟩ := hout node' hnode' edge' hedge'
    rw [he.sink, h.functions]
    exact hwf.sink_mem node hnode edge hedge

theorem forall₂_modify {α : Type} {r : α → α → Prop} (hrefl : ∀ a, r a a) {update : α → α}
    (hupdate : ∀ a, r a (update a)) (l : List α) (i : Nat) :
    List.Forall₂ r l (l.modify i update) := by
  induction l generalizing i with
  | nil => cases i <;> exact .nil
  | cons a l ih =>
    cases i with
    | zero => exact .cons (hupdate a) (List.forall₂_same.2 fun b _ => hrefl b)
    | succ i => exact .cons (hrefl a) (ih i)

theorem graphKept_set (graph : CallGraph F R) (factor : Factor) (value : R) (ref : WeightRef F) :
    GraphKept graph (ref.set graph factor value) := by
  cases ref with
  | node f =>
    refine graphKept_updateNode f fun node => .of_edges rfl ?_ rfl
    exact List.forall₂_same.2 fun edge _ => .refl edge
  | inEdge f i =>
    have hedge : ∀ edge : Edge F R,
        EdgeKept edge { edge with getWeight := edge.getWeight.setValue factor value } := by
      refine fun edge => ⟨rfl, rfl, fun h => ?_⟩
      rw [hasFactor_setValue]
      exact h
    exact graphKept_updateNode f fun node =>
      .of_edges rfl (forall₂_modify EdgeKept.refl hedge _ i) rfl

omit [DecidableEq F] in
theorem graphKept_foldl {α : Type} {body : CallGraph F R → α → CallGraph F R}
    (h : ∀ graph a, GraphKept graph (body graph a)) (l : List α) (graph : CallGraph F R) :
    GraphKept graph (l.foldl body graph) := by
  induction l generalizing graph with
  | nil => exact .refl graph
  | cons a l ih => exact (h graph a).trans (ih _)

theorem graphKept_normalizeWeights [Sub R] [Div R] [Zero R] [LT R] [DecidableLT R] [DecidableEq R]
    (s : State F R) : GraphKept s.callGraph (normalizeWeights s) := by
  refine graphKept_foldl (fun graph factor => ?_) _ _
  unfold normalizeFactor
  split
  · exact .refl graph
  · refine graphKept_foldl (fun graph ref => ?_) _ _
    split
    · exact .refl graph
    · exact graphKept_set graph factor _ ref

/-- The loops over functions that have nodes. -/
theorem exists_addNodeFactors (factor : F → WeightFactor R) (fs : List F) {s : State F R}
    (h : ∀ f ∈ fs, s.callGraph.hasFunctionNode f = true) :
    ∃ s', fs.foldlM (fun s f => addNodeFactor f (factor f) s) s = some s' ∧
      GraphKept s.callGraph s'.callGraph := by
  induction fs generalizing s with
  | nil => exact ⟨s, rfl, .refl _⟩
  | cons f fs ih =>
    have hadd : ∃ s₁, addNodeFactor f (factor f) s = some s₁ := by
      unfold addNodeFactor
      rw [if_pos (h f List.mem_cons_self)]
      exact ⟨_, rfl⟩
    obtain ⟨s₁, hs₁⟩ := hadd
    have hkept := graphKept_addNodeFactor hs₁
    obtain ⟨s', hs', hkept'⟩ := ih (s := s₁) fun g hg => by
      rw [hkept.hasFunctionNode]
      exact h g (List.mem_cons_of_mem f hg)
    exact ⟨s', by rw [List.foldlM_cons, hs₁]; exact hs', hkept.trans hkept'⟩

section Edges

omit [DecidableEq F]
variable [Zero R] [One R] [IntCast R] (M : Module F G V) (s : State F R)

/-- ARG_NUM is defined on all in-edges. -/
theorem argNum_assignArgWeights :
    ∀ node ∈ (assignArgWeights M s).callGraph.functionNodes, ∀ edge ∈ node.inEdges,
      edge.getWeight.hasFactor .argNum = true := by
  let s₁ := addInEdgeFactor .argNum (fun f => some fun _ =>
    (WeightFactor.new .argNum).setValue (((M.argTypes f).length : Int) : R)) s
  have hfirst : ∀ node ∈ s₁.callGraph.functionNodes, ∀ edge ∈ node.inEdges,
      edge.getWeight.hasFactor .argNum = true := by
    refine List.forall_mem_map.2 fun node _ => List.forall_mem_map.2 fun edge _ => ?_
    rw [Edge.addFactor, hasFactor_addFactor]
    rfl
  have hkept : GraphKept s₁.callGraph (assignArgWeights M s).callGraph :=
    graphKept_addInEdgeFactor .argComplexity _ (fun f factor hfactor g => by cases hfactor; rfl) s₁
  intro node hnode edge hedge
  obtain ⟨node₁, hnode₁, hn⟩ := exists_left_of_forall₂ hkept hnode
  obtain ⟨edge₁, hedge₁, he⟩ := exists_left_of_forall₂ hn.inEdges hedge
  exact he.argNum (hfirst node₁ hnode₁ edge₁ hedge₁)

theorem graphKept_assignArgWeights :
    GraphKept s.callGraph (assignArgWeights M s).callGraph := by
  refine .trans (graphKept_addInEdgeFactor .argNum _ (fun f factor hfactor g => ?_) s)
    (graphKept_addInEdgeFactor .argComplexity _ (fun f factor hfactor g => ?_) _)
  · cases hfactor
    rfl
  · cases hfactor
    rfl

theorem graphKept_assignRetValueWeights :
    GraphKept s.callGraph (assignRetValueWeights M s).callGraph := by
  refine graphKept_addInEdgeFactor .retComplexity _ (fun f factor hfactor g => ?_) s
  cases hfactor
  rfl

end Edges

end Kept

/-! ## A whole assignment -/

section Top

variable [DecidableEq F]

/-- The call site data of a function know the callers of its call sites. -/
theorem isSome_countCallSites (loopInfoGetter : LoopInfoGetter F V) {f : F}
    {callSites : List (CallSite F V)} {calls : F → Option Nat}
    (h : (calls f).isSome = true ∨ ∃ callSite ∈ callSites, callSite.getCaller = f) :
    (callSites.foldl (countCallSite loopInfoGetter) calls f).isSome = true := by
  induction callSites generalizing calls with
  | nil =>
    rcases h with h | ⟨callSite, hc, -⟩
    · exact h
    · cases hc
  | cons callSite callSites ih =>
    refine ih ?_
    unfold countCallSite
    by_cases hf : f = callSite.getCaller
    · rw [hf, Function.update_self]
      exact .inl rfl
    · rw [Function.update_of_ne hf]
      rcases h with h | ⟨other, hother, rfl⟩
      · exact .inl h
      · rcases List.mem_cons.1 hother with rfl | hother
        · exact absurd rfl hf
        · exact .inr ⟨other, hother, rfl⟩

variable [Zero R] [One R] [IntCast R] [Sub R] [Div R] [LT R] [DecidableLT R] [DecidableEq R]
  {M : Module F G V} {pdg : PDG F G V N} {loopInfoGetter : LoopInfoGetter F V}
  {order : IterationOrder F} {secure : Partition F G}

omit [Sub R] [Div R] [LT R] [DecidableLT R] [DecidableEq R] in
variable (pdg loopInfoGetter) in
/-- The callers of the in-edges are known where the call site lists name them. -/
theorem exists_assignCallNumWeights {s : State F R}
    (hcallers : ∀ node ∈ s.callGraph.functionNodes, ∀ edge ∈ node.inEdges,
      pdg.hasFunctionPDG node.getFunction = true →
      ∃ callSite ∈ pdg.getCallSites node.getFunction, callSite.getCaller = edge.getSource) :
    ∃ s', assignCallNumWeights pdg loopInfoGetter s = some s' ∧
      GraphKept s.callGraph s'.callGraph := by
  have hknown : callersKnown (collectFunctionCallSiteData pdg loopInfoGetter) s.callGraph = true := by
    refine List.all_eq_true.2 fun node hnode => ?_
    unfold collectFunctionCallSiteData
    split
    · next hpdg =>
      refine List.all_eq_true.2 fun edge hedge => isSome_countCallSites loopInfoGetter (.inr ?_)
      exact hcallers node hnode edge hedge hpdg
    · rfl
  unfold assignCallNumWeights
  dsimp only
  rw [if_pos hknown]
  refine ⟨_, rfl, .trans (graphKept_addInEdgeFactor .callNum _ (fun f factor hfactor g => ?_) s)
    (graphKept_addOutEdgeCallNum _ _)⟩
  obtain ⟨calls, -, rfl⟩ := Option.map_eq_some_iff.1 hfactor
  rfl

variable (M pdg loopInfoGetter order) in
/-- When all lookups succeed, weights are assigned, the graph's nodes and edges stay, the in-edges
have ARG_NUM, and the out-edges do not get it. -/
theorem exists_assignWeights {graph : CallGraph F R}
    (hsecure : ∀ f ∈ secure.partition, graph.hasFunctionNode f = true)
    (hrelated : ∀ f ∈ secure.relatedFunctions, graph.hasFunctionNode f = true)
    (hcallers : ∀ node ∈ graph.functionNodes, ∀ edge ∈ node.inEdges,
      pdg.hasFunctionPDG node.getFunction = true →
      ∃ callSite ∈ pdg.getCallSites node.getFunction, callSite.getCaller = edge.getSource) :
    ∃ graph', assignWeights M pdg loopInfoGetter order secure graph = some graph' ∧
      GraphKept graph graph' ∧ ∀ node ∈ graph'.functionNodes, ∀ edge ∈ node.inEdges,
        edge.getWeight.hasFactor .argNum = true := by
  obtain ⟨s₁, hs₁, h₁⟩ := exists_addNodeFactors
    (fun _ => (WeightFactor.new .sensitive).setValue ((posInfinity : Int) : R))
    _ (s := { callGraph := graph }) fun f hf => hsecure f ((order.mem _ f).1 hf)
  obtain ⟨s₂, hs₂, h₂⟩ := exists_addNodeFactors
    (fun f => relatedFactor ((secure.relatedFunctions.lookup f).getD 0))
    (order.list secure.relatedFunctions.keys) (s := s₁) fun f hf => by
      rw [h₁.hasFunctionNode]
      exact hrelated f (Finmap.mem_keys.1 ((order.mem _ f).1 hf))
  obtain ⟨s₃, hs₃, h₃⟩ := exists_addNodeFactors
    (fun f => (WeightFactor.new .size).setValue ((M.functionSize f : Int) : R))
    (s₂.callGraph.functionNodes.map (·.getFunction)) (s := s₂) fun f hf =>
      CallGraph.hasFunctionNode_iff.2 (List.mem_map.1 hf)
  have hkept : GraphKept graph s₃.callGraph := (h₁.trans h₂).trans h₃
  obtain ⟨s₄, hs₄, h₄⟩ := exists_assignCallNumWeights pdg loopInfoGetter (s := s₃) (by
    intro node hnode edge hedge hpdg
    obtain ⟨node₀, hnode₀, hn⟩ := exists_left_of_forall₂ hkept hnode
    obtain ⟨edge₀, hedge₀, he⟩ := exists_left_of_forall₂ hn.inEdges hedge
    rw [hn.function] at hpdg ⊢
    rw [he.source]
    exact hcallers node₀ hnode₀ edge₀ hedge₀ hpdg)
  let s₅ := assignRetValueWeights M (assignArgWeights M s₄)
  have hlast : GraphKept (assignArgWeights M s₄).callGraph (normalizeWeights s₅) :=
    (graphKept_assignRetValueWeights M _).trans (graphKept_normalizeWeights _)
  refine ⟨normalizeWeights s₅, ?_,
    ((hkept.trans h₄).trans (graphKept_assignArgWeights M s₄)).trans hlast,
    fun node hnode edge hedge => ?_⟩
  · unfold assignWeights assignSensitiveNodeWeights assignSensitiveRelatedNodeWeights
      assignNodeSizeWeights
    simp only [hs₁, hs₂, hs₃, hs₄, Option.bind_eq_bind, Option.bind_some, s₅]
  · obtain ⟨node₀, hnode₀, hn⟩ := exists_left_of_forall₂ hlast hnode
    obtain ⟨edge₀, hedge₀, he⟩ := exists_left_of_forall₂ hn.inEdges hedge
    exact he.argNum (argNum_assignArgWeights M s₄ node₀ hnode₀ edge₀ hedge₀)

/-- The copy of every edge among the out-edges of its source agrees with the one among the in-edges
of its sink, on every factor of edges. -/
def EdgesAgree (graph : CallGraph F R) : Prop :=
  ∀ u ∈ graph.functionNodes, ∀ edge ∈ u.outEdges, ∀ v ∈ graph.functionNodes, ∀ edge' ∈ v.inEdges,
    edge.getSink = v.getFunction → edge'.getSource = u.getFunction →
    ∀ factor ∈ [Factor.callNum, .argNum, .argComplexity, .retComplexity],
      edge.getWeight.hasFactor factor = edge'.getWeight.hasFactor factor ∧
      (edge.getWeight.hasFactor factor = true →
        (edge.getWeight.getFactor factor).getValue = (edge'.getWeight.getFactor factor).getValue ∧
        (edge.getWeight.getFactor factor).getCoef = (edge'.getWeight.getFactor factor).getCoef)

omit [IntCast R] [Sub R] [Div R] [LT R] [DecidableLT R] [DecidableEq R] in
/-- A call is enough for its copies to disagree. -/
theorem not_edgesAgree {graph graph' : CallGraph F R} {calls : List (F × F)}
    (h : graph.Represents calls) (hkept : GraphKept graph graph')
    (hin : ∀ node ∈ graph'.functionNodes, ∀ edge ∈ node.inEdges,
      edge.getWeight.hasFactor .argNum = true) {call : F × F} (hcall : call ∈ calls) :
    ¬ EdgesAgree graph' := by
  intro hagree
  obtain ⟨hsource, hsink⟩ := h.ends call hcall
  obtain ⟨u, hu, huf⟩ := List.mem_map.1 hsource
  obtain ⟨v, hv, hvf⟩ := List.mem_map.1 hsink
  have hout : CallGraph.newEdge call ∈ u.outEdges := by
    rw [h.outEdges u hu]
    exact List.mem_map_of_mem (List.mem_filter.2 ⟨hcall, by simp [huf]⟩)
  have hinEdge : CallGraph.newEdge call ∈ v.inEdges := by
    rw [h.inEdges v hv]
    exact List.mem_map_of_mem (List.mem_filter.2 ⟨hcall, by simp [hvf]⟩)
  obtain ⟨u', hu', hukept⟩ := exists_right_of_forall₂ hkept hu
  obtain ⟨v', hv', hvkept⟩ := exists_right_of_forall₂ hkept hv
  obtain ⟨edge, hedge, hekept, hundefined⟩ := exists_right_of_forall₂ hukept.outEdges hout
  obtain ⟨edge', hedge', hekept'⟩ := exists_right_of_forall₂ hvkept.inEdges hinEdge
  have hnew : (CallGraph.newEdge (R := R) call).getWeight.hasFactor .argNum = false := rfl
  have hboth := (hagree u' hu' edge hedge v' hv' edge' hedge'
    (hekept.sink.trans (hvkept.function.trans hvf).symm)
    (hekept'.source.trans (hukept.function.trans huf).symm) .argNum (by decide)).1
  rw [hundefined, hnew, hin v' hv' edge' hedge'] at hboth
  cases hboth

variable (M loopInfoGetter order) in
/-- On the call graph of `llvmGraph` all lookups succeed, provided that the callers of the call records
stand in the call site lists. -/
theorem exists_assignWeights_create (llvmGraph : LLVMCallGraph F)
    (hsecure : ∀ f ∈ secure.partition,
      (CallGraph.create llvmGraph : CallGraph F R).hasFunctionNode f = true)
    (hrelated : ∀ f ∈ secure.relatedFunctions,
      (CallGraph.create llvmGraph : CallGraph F R).hasFunctionNode f = true)
    (hcallSites : ∀ f g, llvmGraph.Records f g → pdg.hasFunctionPDG g = true →
      ∃ callSite ∈ pdg.getCallSites g, callSite.getCaller = f) :
    ∃ calls graph', (CallGraph.create llvmGraph : CallGraph F R).Represents calls ∧
      (∀ f g, (f, g) ∈ calls ↔ llvmGraph.Records f g) ∧
      assignWeights M pdg loopInfoGetter order secure
        (CallGraph.create llvmGraph : CallGraph F R) = some graph' ∧
      GraphKept (CallGraph.create llvmGraph) graph' ∧
      ∀ node ∈ graph'.functionNodes, ∀ edge ∈ node.inEdges,
        edge.getWeight.hasFactor .argNum = true := by
  obtain ⟨calls, h, hcalls⟩ := CallGraph.exists_represents_create (R := R) llvmGraph
  obtain ⟨graph', hassign, hkept, hin⟩ := exists_assignWeights M pdg loopInfoGetter
    order hsecure hrelated (by
      intro node hnode edge hedge hpdg
      rw [h.inEdges node hnode] at hedge
      obtain ⟨call, hc, rfl⟩ := List.mem_map.1 hedge
      obtain ⟨hc, hsink⟩ := List.mem_filter.1 hc
      have hsink : call.2 = node.getFunction := of_decide_eq_true hsink
      exact hcallSites call.1 _ (hsink ▸ (hcalls call.1 call.2).1 hc) hpdg)
  exact ⟨calls, graph', h, hcalls, hassign, hkept, hin⟩

/-- The weighted graph is well formed. -/
theorem exists_assignWeights_wellFormed (llvmGraph : LLVMCallGraph F)
    (hsecure : ∀ f ∈ secure.partition,
      (CallGraph.create llvmGraph : CallGraph F R).hasFunctionNode f = true)
    (hrelated : ∀ f ∈ secure.relatedFunctions,
      (CallGraph.create llvmGraph : CallGraph F R).hasFunctionNode f = true)
    (hcallSites : ∀ f g, llvmGraph.Records f g → pdg.hasFunctionPDG g = true →
      ∃ callSite ∈ pdg.getCallSites g, callSite.getCaller = f) :
    ∃ graph', assignWeights M pdg loopInfoGetter order secure
        (CallGraph.create llvmGraph : CallGraph F R) = some graph' ∧ graph'.WellFormed := by
  obtain ⟨calls, graph', h, -, hassign, hkept, -⟩ :=
    exists_assignWeights_create M loopInfoGetter order llvmGraph hsecure hrelated hcallSites
  exact ⟨graph', hassign, hkept.wellFormed h.wellFormed⟩

/-! ## Top theorem -/

/-- **The two copies of the edges agree exactly if there is no edge**, that is, if no function of
LLVM's call graph has a call record that leads to a function. -/
theorem create_edgesAgree_iff (llvmGraph : LLVMCallGraph F)
    (hsecure : ∀ f ∈ secure.partition,
      (CallGraph.create llvmGraph : CallGraph F R).hasFunctionNode f = true)
    (hrelated : ∀ f ∈ secure.relatedFunctions,
      (CallGraph.create llvmGraph : CallGraph F R).hasFunctionNode f = true)
    (hcallSites : ∀ f g, llvmGraph.Records f g → pdg.hasFunctionPDG g = true →
      ∃ callSite ∈ pdg.getCallSites g, callSite.getCaller = f) :
    ∃ graph', assignWeights M pdg loopInfoGetter order secure
        (CallGraph.create llvmGraph : CallGraph F R) = some graph' ∧
      (EdgesAgree graph' ↔ ∀ f g, ¬ llvmGraph.Records f g) := by
  obtain ⟨calls, graph', h, hcalls, hassign, hkept, hin⟩ :=
    exists_assignWeights_create M loopInfoGetter order llvmGraph hsecure hrelated hcallSites
  refine ⟨graph', hassign, fun hagree f g hrecord => ?_, fun hnone => ?_⟩
  · exact not_edgesAgree h hkept hin ((hcalls f g).2 hrecord) hagree
  · intro u hu edge hedge
    obtain ⟨u₀, hu₀, hukept⟩ := exists_left_of_forall₂ hkept hu
    obtain ⟨edge₀, hedge₀, -⟩ := exists_left_of_forall₂ hukept.outEdges hedge
    rw [h.outEdges u₀ hu₀] at hedge₀
    obtain ⟨call, hc, -⟩ := List.mem_map.1 hedge₀
    exact absurd ((hcalls call.1 call.2).1 (List.mem_filter.1 hc).1) (hnone _ _)

end Top

/-- `false` calls `true`. -/
def oneCall : LLVMCallGraph Bool := { nodes := [(some false, [some true]), (some true, [none])] }

def oneCallModule : Module Bool Empty Unit where
  functions := [false, true]
  globals := []
  getName := fun f => if f then "callee" else "main"
  isDeclaration := fun _ => false
  isIntrinsic := fun _ => false
  argTypes := fun f => if f then [.integer 32] else []
  getReturnType := fun _ => .void
  functionSize := fun _ => 1
  returnInsts := fun _ => []
  valueClass := fun _ => .callInst

def oneCallPDG : PDG Bool Empty Unit Unit where
  kind := fun _ => .instruction false
  isLLVMNode := fun _ => true
  getNodeValue := fun _ => some ()
  getParent := fun _ => some false
  isPointerArgOperand := fun _ => false
  outEdges := fun _ => []
  inEdges := fun _ => []
  hasFunctionPDG := fun _ => true
  getCallSites := fun f =>
    if f then [{ getInstruction := (), getCaller := false, getParent := () }] else []
  llvmNodes := fun f => if f then [] else [((), ())]
  getNode := fun _ _ => none
  getFormalArgNode := fun _ _ => none
  getGlobalVariableNode := fun _ => none

def boolOrder : IterationOrder Bool where
  list := fun s => [false, true].filter (· ∈ s)
  nodup := fun s => List.Nodup.filter _ (by decide)
  mem := fun s f => by cases f <;> simp

def oneCallSecure : Partition Bool Empty := { partition := {true} }

theorem oneCall_callSites (f g : Bool) (h : oneCall.Records f g) :
    ∃ callSite ∈ oneCallPDG.getCallSites g, callSite.getCaller = f := by
  obtain ⟨node, hnode, hf, hg⟩ := h
  simp only [oneCall, List.mem_cons, List.not_mem_nil, or_false] at hnode
  rcases hnode with rfl | rfl
  · simp only [List.mem_singleton, Option.some.injEq] at hf hg
    subst hf hg
    exact ⟨_, List.mem_cons_self, rfl⟩
  · simp at hg

theorem oneCall_disagrees :
    ∃ graph', assignWeights oneCallModule oneCallPDG (fun _ => none) boolOrder oneCallSecure
        (CallGraph.create oneCall : CallGraph Bool ℚ) = some graph' ∧ ¬ EdgesAgree graph' := by
  have hsecure : ∀ f ∈ oneCallSecure.partition,
      (CallGraph.create oneCall : CallGraph Bool ℚ).hasFunctionNode f = true := by decide
  have hrelated : ∀ f ∈ oneCallSecure.relatedFunctions,
      (CallGraph.create oneCall : CallGraph Bool ℚ).hasFunctionNode f = true :=
    fun f hf => absurd hf Finmap.notMem_empty
  obtain ⟨calls, graph', h, hcalls, hassign, hkept, hin⟩ := exists_assignWeights_create
    oneCallModule (fun _ => none) boolOrder oneCall hsecure hrelated
    fun f g h _ => oneCall_callSites f g h
  have hcall : (false, true) ∈ calls :=
    (hcalls _ _).2 ⟨_, List.mem_cons_self, rfl, List.mem_cons_self⟩
  exact ⟨graph', hassign, not_edgesAgree h hkept hin hcall⟩

theorem oneCall_agree_iff :
    ∃ graph', assignWeights oneCallModule oneCallPDG (fun _ => none) boolOrder oneCallSecure
        (CallGraph.create oneCall : CallGraph Bool ℚ) = some graph' ∧
      (EdgesAgree graph' ↔ ∀ f g, ¬ oneCall.Records f g) :=
  create_edgesAgree_iff oneCall (by decide) (fun f hf => absurd hf Finmap.notMem_empty)
    fun f g h _ => oneCall_callSites f g h

end WeightAssigningHelper

end Vazgen
