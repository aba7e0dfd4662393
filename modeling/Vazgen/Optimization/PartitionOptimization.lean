import Vazgen.Optimization.ILPOptimization
import Vazgen.Optimization.KLOptimizationPass

/-!
# The optimisations of the partition optimiser

Each optimisation collects something in `run`, and changes the partitions in `apply`; only the
Kernighan-Lin optimisation changes them in `run`.
-/

namespace Vazgen

variable {F G V N R : Type}

namespace FunctionsMoveToPartitionOptimization

section Run

variable [DecidableEq F]

def hasCallSiteOutsidePartition (P : Partition F G) (callSites : List (CallSite F V)) : Bool :=
  callSites.any fun callSite => callSite.getCaller ∉ P.partition

def hasCallSiteInLoop (P : Partition F G) (loopInfoGetter : LoopInfoGetter F V)
    (callSites : List (CallSite F V)) : Bool :=
  callSites.any fun callSite =>
    if callSite.getCaller ∈ P.partition then
      match loopInfoGetter callSite.getCaller with
      | none => false
      | some getLoopFor => getLoopFor callSite.getParent
    else false

variable (M : Module F G V) (pdg : PDG F G V N) (P : Partition F G)

/-- The functions of the out-interface that the two computations look at. -/
def outside (movedFunctions : Finset F) : Finset F :=
  P.outInterface.filter fun f => f ∉ movedFunctions ∧ M.isDeclaration f = false

/-- `none` when the assertion that a function of the out-interface has a graph fails. -/
def computeFunctionsCalledFromPartitionOnly (movedFunctions : Finset F) : Option (Finset F) :=
  if ∀ f ∈ outside M P movedFunctions, pdg.hasFunctionPDG f = true then
    some ((outside M P movedFunctions).filter fun f =>
      hasCallSiteOutsidePartition P (pdg.getCallSites f) = false)
  else none

def computeFunctionsCalledFromPartitionLoops (loopInfoGetter : LoopInfoGetter F V)
    (movedFunctions : Finset F) : Finset F :=
  (outside M P movedFunctions).filter fun f =>
    hasCallSiteInLoop P loopInfoGetter (pdg.getCallSites f) = true

/-- `run`: the moved functions. -/
def run (loopInfoGetter : LoopInfoGetter F V) : Option (Finset F) :=
  (computeFunctionsCalledFromPartitionOnly M pdg P ∅).map fun movedFunctions =>
    movedFunctions ∪ computeFunctionsCalledFromPartitionLoops M pdg P loopInfoGetter movedFunctions

/-- A defined function of the out-interface that the partition alone calls, or calls in a loop. -/
def Moves (loopInfoGetter : LoopInfoGetter F V) (f : F) : Prop :=
  f ∈ P.outInterface ∧ M.isDeclaration f = false ∧
    (hasCallSiteOutsidePartition P (pdg.getCallSites f) = false ∨
      hasCallSiteInLoop P loopInfoGetter (pdg.getCallSites f) = true)

variable {M pdg P}

theorem mem_run_iff {loopInfoGetter : LoopInfoGetter F V} {moved : Finset F}
    (h : run M pdg P loopInfoGetter = some moved) (f : F) :
    f ∈ moved ↔ Moves M pdg P loopInfoGetter f := by
  unfold run computeFunctionsCalledFromPartitionOnly at h
  split at h
  · cases h
    simp only [computeFunctionsCalledFromPartitionLoops, outside, Moves, Finset.mem_union,
      Finset.mem_filter, Finset.notMem_empty, not_false_eq_true, true_and]
    tauto
  · cases h

/-- When the defined functions of the out-interface have graphs, `run` returns some of them. -/
theorem exists_run (loopInfoGetter : LoopInfoGetter F V)
    (h : ∀ f ∈ P.outInterface, M.isDeclaration f = false → pdg.hasFunctionPDG f = true) :
    ∃ moved, run M pdg P loopInfoGetter = some moved ∧ moved ⊆ P.outInterface := by
  have houtside : ∀ moved : Finset F, outside M P moved ⊆ P.outInterface := fun moved =>
    Finset.filter_subset _ _
  unfold run computeFunctionsCalledFromPartitionOnly
  rw [if_pos fun f hf => h f (houtside _ hf) (Finset.mem_filter.1 hf).2.2, Option.map_some]
  refine ⟨_, rfl, Finset.union_subset ?_ ?_⟩
  · exact (Finset.filter_subset _ _).trans (houtside _)
  · exact (Finset.filter_subset _ _).trans (houtside _)

end Run

/-- `apply` -/
def apply [DecidableEq F] (movedFunctions : Finset F) (P : Partition F G) : Partition F G :=
  P.addFunctions movedFunctions

end FunctionsMoveToPartitionOptimization

namespace GlobalsMoveToPartitionOptimization

/-- `run`: the partition's own globals, less the ones in `outsideUses`. -/
def run [DecidableEq G] (outsideUses : Finset G) (P : Partition F G) : Finset G :=
  P.partitionGlobals.filter fun g => g ∉ outsideUses

/-- `apply` -/
def apply (movedGlobals : Finset G) (P : Partition F G) : Partition F G :=
  P.setGlobals movedGlobals

end GlobalsMoveToPartitionOptimization

namespace DuplicateFunctionsOptimization

/-- `run`: the functions that are to be moved into both partitions. -/
def run [DecidableEq F] (securePartFs insecurePartFs : Finset F) : Finset F :=
  securePartFs.filter fun f => f ∈ insecurePartFs

end DuplicateFunctionsOptimization

namespace StaticAnalysisOptimization

/-- `apply`: the related functions join the partition. -/
def apply [DecidableEq F] (P : Partition F G) : Partition F G :=
  (P.addFunctions P.relatedFunctions.keys).clearRelatedFunctions

end StaticAnalysisOptimization

namespace KLOptimizer

def collectPassCandidates (order : IterationOrder F) (M : Module F G V) (insecure : Partition F G) :
    List F :=
  (order.list insecure.partition).filter fun f =>
    !M.isDeclaration f && !M.isIntrinsic f && M.getName f != "main"

variable [DecidableEq F] [Zero R] [Add R] [Sub R] [Mul R] [SMul ℤ R] [LT R] [DecidableLT R] [LE R]
  [DecidableLE R]

/-- `run` -/
def run (order : IterationOrder F) (M : Module F G V) (callgraph : CallGraph F R)
    (secure insecure : Partition F G) : Option (Partition F G × Partition F G) :=
  KLOptimizationPass.run callgraph secure insecure (collectPassCandidates order M insecure)

omit [DecidableEq F] in
theorem mem_collectPassCandidates {order : IterationOrder F} {M : Module F G V}
    {insecure : Partition F G} {f : F} :
    f ∈ collectPassCandidates order M insecure ↔ f ∈ insecure.partition ∧
      M.isDeclaration f = false ∧ M.isIntrinsic f = false ∧ M.getName f ≠ "main" := by
  unfold collectPassCandidates
  rw [List.mem_filter, order.mem]
  simp [and_assoc]

/-- When the insecure functions have call graph nodes, `run` moves some candidates over, which are
no longer related then. -/
theorem exists_run (order : IterationOrder F) (M : Module F G V) {callgraph : CallGraph F R}
    {secure insecure : Partition F G} (hdisj : Disjoint secure.partition insecure.partition)
    (hnode : ∀ f ∈ insecure.partition, callgraph.hasFunctionNode f = true) :
    ∃ kept P, (∀ f ∈ kept, f ∈ collectPassCandidates order M insecure) ∧
      P.relatedFunctions.keys = secure.relatedFunctions.keys \ kept ∧
      P.partition = secure.partition ∪ kept ∧ P.outInterface = secure.outInterface ∧
      run order M callgraph secure insecure =
        some (P, { insecure with partition := insecure.partition \ kept }) := by
  have hmem : ∀ f ∈ collectPassCandidates order M insecure, f ∈ insecure.partition := fun f hf =>
    (mem_collectPassCandidates.1 hf).1
  obtain ⟨t, -, hperm, hrun⟩ := KLOptimizationPass.run_eq (R := R)
    ((order.nodup insecure.partition).filter _) hmem
    (fun f hf hs => Finset.disjoint_left.1 hdisj hs (hmem f hf)) (fun f hf => hnode f (hmem f hf))
  refine ⟨(KLOptimizationPass.keptMoves t).toFinset, _, fun f hf => ?_, ?_, ?_, ?_, hrun⟩
  · exact KLOptimizationPass.mem_of_mem_keptMoves hperm (List.mem_toFinset.1 hf)
  · exact Partition.keys_foldl_removeRelatedFunction _ _
  · exact Partition.partition_foldl_removeRelatedFunction _ _
  · exact Partition.outInterface_foldl_removeRelatedFunction _ _

end KLOptimizer

end Vazgen
