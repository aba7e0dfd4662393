import Vazgen.Analysis.PDG
import Vazgen.Lib.MinMap

/-!
# Partitions and their interfaces

`Partition` is one side of the partitioned program.  `computeInInterface` reads the call site lists
of the side's own functions, `computeOutInterface` the control edges that leave its call
instructions.  The two scans agree on two complementary sides, provided that the graph's call site
lists and control edges do (`CallSitesExact`):

    computeOutInterface M pdg A = computeInInterface pdg B      (computeOutInterface_eq)
-/

namespace Vazgen

variable {F G V N : Type}

/-- `Partition`: `relatedFunctions` maps a function to its relation level. -/
structure Partition (F G : Type) where
  relatedFunctions : Finmap (fun _ : F => Int) := ∅
  partition : Finset F := ∅
  inInterface : Finset F := ∅
  outInterface : Finset F := ∅
  partitionGlobals : Finset G := ∅

/-- The order in which a set of functions is iterated over. -/
structure IterationOrder (F : Type) where
  list : Finset F → List F
  nodup : ∀ s, (list s).Nodup
  mem : ∀ s f, f ∈ list s ↔ f ∈ s

/-- The only order for `()`. -/
def IterationOrder.unit : IterationOrder Unit where
  list s := if () ∈ s then [()] else []
  nodup s := by split <;> simp
  mem s _ := by split <;> simp_all

namespace Partition

def setInInterface (P : Partition F G) (functions : Finset F) : Partition F G :=
  { P with inInterface := functions }

def setOutInterface (P : Partition F G) (functions : Finset F) : Partition F G :=
  { P with outInterface := functions }

def setGlobals (P : Partition F G) (globals : Finset G) : Partition F G :=
  { P with partitionGlobals := globals }

def clearRelatedFunctions (P : Partition F G) : Partition F G :=
  { P with relatedFunctions := ∅ }

section Update

variable [DecidableEq F]

/-- `addToPartition(llvm::Function*)` -/
def addToPartition (P : Partition F G) (f : F) : Partition F G :=
  { P with partition := insert f P.partition }

/-- `addToPartition(const FunctionSet&)` -/
def addFunctions (P : Partition F G) (functions : Finset F) : Partition F G :=
  { P with partition := P.partition ∪ functions }

def addRelatedFunction (P : Partition F G) (f : F) (level : Int) : Partition F G :=
  { P with relatedFunctions := MinMap.insertNew f level P.relatedFunctions }

def addRelatedFunctions (P Q : Partition F G) : Partition F G :=
  { P with relatedFunctions := MinMap.mergeMin P.relatedFunctions Q.relatedFunctions }

/-- `addToPartition(const Partition&)` -/
def addPartition [DecidableEq G] (P Q : Partition F G) : Partition F G :=
  addRelatedFunctions
    { P with
      partition := P.partition ∪ Q.partition
      inInterface := P.inInterface ∪ Q.inInterface
      outInterface := P.outInterface ∪ Q.outInterface
      partitionGlobals := P.partitionGlobals ∪ Q.partitionGlobals } Q

def removeFromPartition (P : Partition F G) (f : F) : Partition F G :=
  { P with partition := P.partition.erase f }

def removeRelatedFunction (P : Partition F G) (f : F) : Partition F G :=
  { P with relatedFunctions := P.relatedFunctions.erase f }

end Update

/-! What each operation does to the function set and to the related functions. -/

section Fields

variable (P Q : Partition F G) (f : F) (s : Finset F) (gs : Finset G) (level : Int)

@[simp] theorem partition_setInInterface : (P.setInInterface s).partition = P.partition := rfl
@[simp] theorem partition_setOutInterface : (P.setOutInterface s).partition = P.partition := rfl
@[simp] theorem partition_setGlobals : (P.setGlobals gs).partition = P.partition := rfl
@[simp] theorem partition_clearRelatedFunctions : P.clearRelatedFunctions.partition = P.partition := rfl

variable [DecidableEq F]

@[simp] theorem partition_addToPartition : (P.addToPartition f).partition = insert f P.partition := rfl
@[simp] theorem partition_addFunctions : (P.addFunctions s).partition = P.partition ∪ s := rfl
@[simp] theorem partition_addRelatedFunction :
    (P.addRelatedFunction f level).partition = P.partition := rfl
@[simp] theorem partition_addPartition [DecidableEq G] :
    (P.addPartition Q).partition = P.partition ∪ Q.partition := rfl
@[simp] theorem partition_removeFromPartition :
    (P.removeFromPartition f).partition = P.partition.erase f := rfl
@[simp] theorem partition_removeRelatedFunction :
    (P.removeRelatedFunction f).partition = P.partition := rfl

@[simp] theorem keys_addRelatedFunction :
    (P.addRelatedFunction f level).relatedFunctions.keys = insert f P.relatedFunctions.keys :=
  MinMap.keys_insertNew f level P.relatedFunctions

@[simp] theorem keys_removeRelatedFunction :
    (P.removeRelatedFunction f).relatedFunctions.keys = P.relatedFunctions.keys.erase f :=
  Finmap.keys_erase f P.relatedFunctions

/-! Operations over lists of functions. -/

theorem foldl_addToPartition (fs : List F) :
    fs.foldl (fun P f => P.addToPartition f) P =
      { P with partition := P.partition ∪ fs.toFinset } := by
  induction fs generalizing P with
  | nil => simp
  | cons f fs ih =>
    rw [List.foldl_cons, ih, List.toFinset_cons]
    simp only [addToPartition, Finset.insert_union, Finset.union_insert]

theorem foldl_removeFromPartition (fs : List F) :
    fs.foldl (fun P f => P.removeFromPartition f) P =
      { P with partition := P.partition \ fs.toFinset } := by
  induction fs generalizing P with
  | nil => simp
  | cons f fs ih =>
    rw [List.foldl_cons, ih, List.toFinset_cons]
    simp only [removeFromPartition, Finset.sdiff_insert, Finset.erase_sdiff_comm]

@[simp] theorem partition_foldl_removeRelatedFunction (fs : List F) :
    (fs.foldl (fun P f => P.removeRelatedFunction f) P).partition = P.partition := by
  induction fs generalizing P with
  | nil => rfl
  | cons f fs ih => rw [List.foldl_cons, ih, partition_removeRelatedFunction]

theorem outInterface_foldl_removeRelatedFunction (fs : List F) :
    (fs.foldl (fun P f => P.removeRelatedFunction f) P).outInterface = P.outInterface := by
  induction fs generalizing P with
  | nil => rfl
  | cons f fs ih => rw [List.foldl_cons, ih, removeRelatedFunction]

theorem partitionGlobals_foldl_removeRelatedFunction (fs : List F) :
    (fs.foldl (fun P f => P.removeRelatedFunction f) P).partitionGlobals = P.partitionGlobals := by
  induction fs generalizing P with
  | nil => rfl
  | cons f fs ih => rw [List.foldl_cons, ih, removeRelatedFunction]

theorem keys_foldl_removeRelatedFunction (fs : List F) :
    (fs.foldl (fun P f => P.removeRelatedFunction f) P).relatedFunctions.keys =
      P.relatedFunctions.keys \ fs.toFinset := by
  induction fs generalizing P with
  | nil => simp
  | cons f fs ih =>
    rw [List.foldl_cons, ih, List.toFinset_cons, keys_removeRelatedFunction, Finset.sdiff_insert,
      Finset.erase_sdiff_comm]

end Fields

end Partition

/-! ## Interfaces -/

/-- `PartitionUtils::computeInInterface` -/
def computeInInterface [DecidableEq F] (pdg : PDG F G V N) (functions : Finset F) : Finset F :=
  functions.filter fun f =>
    pdg.hasFunctionPDG f = true ∧ ∃ callSite ∈ pdg.getCallSites f, callSite.getCaller ∉ functions

/-- A call or an invoke instruction. -/
def Module.isCall (M : Module F G V) (v : V) : Bool :=
  match M.valueClass v with
  | .callInst | .invokeInst => true
  | .storeInst _ _ | .other => false

/-- The functions that the call instructions of `f`'s graph have a control edge to. -/
def calledFunctions (M : Module F G V) (pdg : PDG F G V N) (f : F) : List F :=
  (pdg.llvmNodes f).flatMap fun entry =>
    if M.isCall entry.1 then
      (pdg.outEdges entry.2).filterMap fun edge =>
        if edge.isControlEdge then pdg.functionOf edge.getDestination else none
    else []

/-- `PartitionUtils::computeOutInterface` -/
def computeOutInterface [DecidableEq F] (M : Module F G V) (pdg : PDG F G V N) (functions : Finset F) : Finset F :=
  functions.biUnion fun f =>
    if pdg.hasFunctionPDG f then
      (calledFunctions M pdg f).toFinset.filter (· ∉ functions)
    else ∅

/-- What the interfaces rely on: every function of the module has a graph, whose call site list is
exactly the set of the call instructions, in their callers' graphs, that have a control edge to its
function node; callers and callees are functions of the module. -/
structure PDG.CallSitesExact (M : Module F G V) (pdg : PDG F G V N) : Prop where
  hasFunctionPDG : ∀ f ∈ M.functions, pdg.hasFunctionPDG f = true
  caller_mem : ∀ f ∈ M.functions, ∀ callSite ∈ pdg.getCallSites f,
    callSite.getCaller ∈ M.functions
  callee_mem : ∀ f ∈ M.functions, ∀ g ∈ calledFunctions M pdg f, g ∈ M.functions
  /-- a call site of `g` in `f` is a call instruction of `f` with a control edge to `g`'s node -/
  callSite_iff : ∀ f ∈ M.functions, ∀ g ∈ M.functions, ∀ v,
    (∃ callSite ∈ pdg.getCallSites g, callSite.getInstruction = v ∧ callSite.getCaller = f) ↔
      ∃ node, (v, node) ∈ pdg.llvmNodes f ∧ M.isCall v = true ∧
        ∃ edge ∈ pdg.outEdges node, edge.isControlEdge = true ∧
          pdg.functionOf edge.getDestination = some g

theorem mem_computeInInterface [DecidableEq F] (pdg : PDG F G V N) (functions : Finset F) (f : F) :
    f ∈ computeInInterface pdg functions ↔ f ∈ functions ∧ pdg.hasFunctionPDG f = true ∧
      ∃ callSite ∈ pdg.getCallSites f, callSite.getCaller ∉ functions := by
  unfold computeInInterface
  rw [Finset.mem_filter]

theorem mem_calledFunctions (M : Module F G V) (pdg : PDG F G V N) (f g : F) :
    g ∈ calledFunctions M pdg f ↔ ∃ v node, (v, node) ∈ pdg.llvmNodes f ∧ M.isCall v = true ∧
      ∃ edge ∈ pdg.outEdges node, edge.isControlEdge = true ∧
        pdg.functionOf edge.getDestination = some g := by
  unfold calledFunctions
  rw [List.mem_flatMap]
  constructor
  · rintro ⟨⟨v, node⟩, hn, hg⟩
    split at hg
    · next hv =>
      obtain ⟨edge, he, hg⟩ := List.mem_filterMap.1 hg
      split at hg
      · next hc => exact ⟨v, node, hn, hv, edge, he, hc, hg⟩
      · cases hg
    · cases hg
  · rintro ⟨v, node, hn, hv, edge, he, hc, hg⟩
    refine ⟨(v, node), hn, ?_⟩
    rw [if_pos hv]
    exact List.mem_filterMap.2 ⟨edge, he, by rw [if_pos hc, hg]⟩

theorem mem_computeOutInterface [DecidableEq F] (M : Module F G V) (pdg : PDG F G V N)
    (functions : Finset F) (g : F) :
    g ∈ computeOutInterface M pdg functions ↔ g ∉ functions ∧
      ∃ f ∈ functions, pdg.hasFunctionPDG f = true ∧ g ∈ calledFunctions M pdg f := by
  unfold computeOutInterface
  rw [Finset.mem_biUnion]
  constructor
  · rintro ⟨f, hf, hg⟩
    split at hg
    · next hp =>
      rw [Finset.mem_filter, List.mem_toFinset] at hg
      exact ⟨hg.2, f, hf, hp, hg.1⟩
    · simp at hg
  · rintro ⟨hn, f, hf, hp, hg⟩
    refine ⟨f, hf, ?_⟩
    rw [if_pos hp, Finset.mem_filter, List.mem_toFinset]
    exact ⟨hg, hn⟩

/-- `A` and `B` split the module's functions and contain nothing else. -/
structure Complementary (M : Module F G V) (A B : Finset F) : Prop where
  left_mem : ∀ f ∈ A, f ∈ M.functions
  right_mem : ∀ f ∈ B, f ∈ M.functions
  cover : ∀ f ∈ M.functions, f ∈ A ∨ f ∈ B
  disjoint : ∀ f ∈ A, f ∉ B

theorem Complementary.symm {M : Module F G V} {A B : Finset F} (h : Complementary M A B) :
    Complementary M B A where
  left_mem := h.right_mem
  right_mem := h.left_mem
  cover f hf := (h.cover f hf).symm
  disjoint f hB hA := h.disjoint f hA hB

theorem Complementary.not_mem_iff {M : Module F G V} {A B : Finset F} (h : Complementary M A B)
    {f : F} (hf : f ∈ M.functions) : f ∉ A ↔ f ∈ B := by
  constructor
  · exact (h.cover f hf).resolve_left
  · exact fun hB hA => h.disjoint f hA hB

/-- **Complete mediation.**  A function is in the in-interface of its own side exactly when some
call site of it has its caller on the other side. -/
theorem mem_computeInInterface_iff [DecidableEq F] {M : Module F G V} {pdg : PDG F G V N}
    (hpdg : pdg.CallSitesExact M) {A B : Finset F} (h : Complementary M A B) {g : F} (hg : g ∈ A) :
    g ∈ computeInInterface pdg A ↔ ∃ callSite ∈ pdg.getCallSites g, callSite.getCaller ∈ B := by
  have hgM := h.left_mem g hg
  rw [mem_computeInInterface]
  constructor
  · rintro ⟨-, -, callSite, hc, hcaller⟩
    exact ⟨callSite, hc, (h.not_mem_iff (hpdg.caller_mem g hgM callSite hc)).1 hcaller⟩
  · rintro ⟨callSite, hc, hcaller⟩
    exact ⟨hg, hpdg.hasFunctionPDG g hgM, callSite, hc, fun hA => h.disjoint _ hA hcaller⟩

/-- **Duality.**  The out-interface of one side is the in-interface of the other. -/
theorem computeOutInterface_eq [DecidableEq F] {M : Module F G V} {pdg : PDG F G V N}
    (hpdg : pdg.CallSitesExact M) {A B : Finset F} (h : Complementary M A B) :
    computeOutInterface M pdg A = computeInInterface pdg B := by
  ext g
  rw [mem_computeOutInterface, mem_computeInInterface]
  constructor
  · rintro ⟨hgA, f, hf, -, hg⟩
    have hfM := h.left_mem f hf
    have hgM := hpdg.callee_mem f hfM g hg
    obtain ⟨v, hcall⟩ := (mem_calledFunctions M pdg f g).1 hg
    obtain ⟨callSite, hc, -, rfl⟩ := (hpdg.callSite_iff f hfM g hgM v).2 hcall
    exact ⟨(h.not_mem_iff hgM).1 hgA, hpdg.hasFunctionPDG g hgM, callSite, hc, h.disjoint _ hf⟩
  · rintro ⟨hgB, -, callSite, hc, hcaller⟩
    have hgM := h.right_mem g hgB
    have hfM := hpdg.caller_mem g hgM callSite hc
    have hcall := (hpdg.callSite_iff _ hfM g hgM callSite.getInstruction).1 ⟨callSite, hc, rfl, rfl⟩
    exact ⟨h.symm.disjoint g hgB, callSite.getCaller, (h.symm.not_mem_iff hfM).1 hcaller,
      hpdg.hasFunctionPDG _ hfM, (mem_calledFunctions M pdg _ g).2 ⟨_, hcall⟩⟩

end Vazgen
