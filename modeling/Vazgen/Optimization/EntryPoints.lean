import Vazgen.Optimization.BatchRun

/-!
# Entry points of the enclave

The in-interface of the secure partition is what can be called from outside the enclave.  An
optimisation makes no entry point of a function that was secure and was none
(`entry_points`).  Of the functions it moves FUNCTIONS_MOVE_TO makes entry points for one reason only:
they are called in a loop of the secure partition, and from outside as well.
-/

namespace Vazgen

variable {F G V N R : Type}

namespace PartitionOptimizer

open FunctionsMoveToPartitionOptimization (Moves hasCallSiteInLoop hasCallSiteOutsidePartition)

section Outside

variable [DecidableEq F] {P : Partition F G} {callSites : List (CallSite F V)}

theorem hasCallSiteOutsidePartition_iff :
    hasCallSiteOutsidePartition P callSites = true ↔
      ∃ callSite ∈ callSites, callSite.getCaller ∉ P.partition := by
  unfold hasCallSiteOutsidePartition
  simp

end Outside

section Moved

variable [DecidableEq F] [Zero R] [One R] [Add R] [Neg R] [Sub R] [Mul R] [DecidableEq R]
  {env : Environment F G V N R} {secure : Partition F G} {opts : List Optimization}

omit [DecidableEq F] [Zero R] [One R] [Add R] [Neg R] [Sub R] [Mul R] [DecidableEq R] in
/-- What is left in the insecure partition was there before. -/
theorem insecure_subset {insecure S I : Partition F G}
    (hbefore : Complementary env.module secure.partition insecure.partition)
    (hafter : Complementary env.module S.partition I.partition)
    (hkept : ∀ f ∈ secure.partition, f ∈ S.partition) :
    ∀ f ∈ I.partition, f ∈ insecure.partition := by
  intro f hf
  have hcover := hbefore.cover f (hafter.right_mem f hf)
  exact hcover.resolve_left fun hs => hafter.disjoint f (hkept f hs) hf

variable [DecidableEq G]

/-- The functions moved by FUNCTIONS_MOVE_TO that become entry points. -/
theorem mem_inInterface_iff_of_batch {insecure S I : Partition F G}
    (hbefore : Complementary env.module secure.partition insecure.partition)
    (hbatch : RunsBatch env secure insecure opts S I) (hmediated : Mediated env.pdg S I)
    (hopt : .functionsMoveTo ∈ opts) {f : F}
    (hmoves : Moves env.module env.pdg secure env.loopInfoGetter f) :
    f ∈ S.inInterface ↔
      hasCallSiteInLoop secure env.loopInfoGetter (env.pdg.getCallSites f) = true ∧
      ∃ callSite ∈ env.pdg.getCallSites f, callSite.getCaller ∈ insecure.partition ∧
        ¬ ∃ opt ∈ opts, MovedBy env secure callSite.getCaller opt := by
  have hmem : f ∈ S.partition := (hbatch.mem_secure f).2 (.inr ⟨_, hopt, hmoves⟩)
  have hstays : ∀ g, g ∈ I.partition ↔
      g ∈ insecure.partition ∧ ¬ ∃ opt ∈ opts, MovedBy env secure g opt := by
    intro g
    rw [hbatch.insecure_eq, Finset.mem_sdiff, hbatch.mem_secure]
    refine and_congr_right fun hg => not_congr (or_iff_right fun hs => ?_)
    exact hbefore.disjoint g hs hg
  rw [hmediated.secure_in f hmem]
  constructor
  · rintro ⟨callSite, hsite, hcaller⟩
    obtain ⟨hinsecure, hnot⟩ := (hstays _).1 hcaller
    refine ⟨hmoves.2.2.resolve_left fun hno => ?_, callSite, hsite, hinsecure, hnot⟩
    -- the call that makes it an entry point is one from outside
    have houtside := hasCallSiteOutsidePartition_iff.2
      ⟨callSite, hsite, fun hs => hbefore.disjoint _ hs hinsecure⟩
    rw [hno] at houtside
    cases houtside
  · rintro ⟨-, callSite, hsite, hcaller⟩
    exact ⟨callSite, hsite, (hstays _).2 hcaller⟩

end Moved

section Run

variable [DecidableEq F] [DecidableEq G] [DecidableEq V] [Zero R] [One R] [Add R] [Neg R] [Sub R] [Mul R] [SMul ℤ R]
  [DecidableEq R] [LT R] [DecidableLT R] [LE R] [DecidableLE R]

omit [DecidableEq V] in
/-- What a run collects that does not fail, for any list of optimisations. -/
theorem collected_of_run {env : Environment F G V N R} {secure insecure S I : Partition F G}
    {opts : List Optimization} (hready : Ready env secure insecure)
    (h : run env secure insecure opts = some (S, I)) :
    ∃ s, Collected env.callgraph secure insecure s ∧
      Purged env (s.optimizations.foldl applyOptimization s) S I := by
  obtain ⟨s, hs, happly⟩ := run_cases h
  have hcollected : Collected env.callgraph secure insecure s := by
    refine runOptimizations_induct (fun opt _ side t t' ht hrun => ?_) (collected_start hready) hs
    by_cases hopt : Supported opt
    · obtain ⟨t'', hrun', ht'⟩ := exists_runOptimizer hready hopt side ht
      rw [hrun] at hrun'
      exact Option.some.inj hrun' ▸ ht'
    · obtain ⟨obj, hobj, rfl⟩ | ⟨rfl, -⟩ := runOptimizer_cases hrun
      · -- DUPLICATE_FUNCTIONS moves nothing
        cases hobj with
        | duplicateFunctions => exact ht.push _ (Finset.empty_subset _)
        | functionsMoveTo => exact absurd (by decide) hopt
        | globalsMoveTo => exact absurd (by decide) hopt
        | staticAnalysis => exact absurd (by decide) hopt
        | ilp => exact absurd (by decide) hopt
      · exact absurd (by decide) hopt
  have hpurged := purged_apply env s
  rw [happly] at hpurged
  exact ⟨s, hcollected, hpurged⟩

/-- **The entry points after a run** of any list of optimisations after partitioning, and those that
FUNCTIONS_MOVE_TO makes in a run without KERNIGHAN_LIN. -/
theorem entry_points (env : Environment F G V N R) (hsites : env.pdg.CallSitesExact env.module)
    (hpdg : env.pdg.FunctionsIn env.module)
    (hnode : ∀ f, env.callgraph.hasFunctionNode f = true ↔ f ∈ env.module.functions)
    (fuel : Nat) (annotations : Annotations F)
    (hannotations : ∀ annot ∈ annotations, annot.getFunction ∈ env.module.functions)
    (secure insecure : Partition F G)
    (hpartition : Partitioner.partition env.module env.pdg fuel annotations =
      some (secure, insecure))
    (opts : List Optimization) (S I : Partition F G)
    (hrun : run env secure insecure opts = some (S, I)) :
    (∀ f ∈ S.inInterface, f ∈ secure.partition → f ∈ secure.inInterface) ∧
      ((∀ opt ∈ opts, InBatch opt) → .functionsMoveTo ∈ opts →
        ∀ f, Moves env.module env.pdg secure env.loopInfoGetter f →
          (f ∈ S.inInterface ↔
            hasCallSiteInLoop secure env.loopInfoGetter (env.pdg.getCallSites f) = true ∧
            ∃ callSite ∈ env.pdg.getCallSites f, callSite.getCaller ∈ insecure.partition ∧
              ¬ ∃ opt ∈ opts, MovedBy env secure callSite.getCaller opt)) := by
  have hparts := Partitioner.partitioned hpartition
  have hbefore := hparts.complementary hannotations
  have hmediated := mediated_of_complementary hsites hbefore hparts.secure_interfaced
    hparts.insecure_interfaced
  have hsplits : ∀ f ∈ insecure.outInterface, f ∈ secure.partition :=
    (splits_of_partition hpdg (fun f hf _ => hsites.hasFunctionPDG f hf) hnode hpartition).insecure_out
  obtain ⟨s, hs, hpurged⟩ := collected_of_run (ready_of_partition hpartition hpdg
    (fun f hf _ => hsites.hasFunctionPDG f hf) (fun f hf => (hnode f).2 hf)) hrun
  have hwithin := within_of_collected hs hsites hnode hbefore hparts.secure_interfaced
    hparts.insecure_interfaced (Partitioner.relatedIn_partition hpdg hpartition)
  have happlied := applied_of_collected hs
  have hafter := hpurged.complementary happlied hwithin hbefore
  have hmediated' := mediated_of_complementary hsites hafter hpurged.secure_interfaced
    hpurged.insecure_interfaced
  have hkept : ∀ f ∈ secure.partition, f ∈ S.partition := fun f hf => by
    rw [hpurged.secure_eq]
    exact happlied.secure_sub hf
  have hsub := insecure_subset hbefore hafter hkept
  refine ⟨fun f hf hsecure => ?_, fun hbatch hopt f hmoves => ?_⟩
  · obtain ⟨callSite, hmem, hcaller⟩ := (hmediated'.secure_in f (hkept f hsecure)).1 hf
    exact (hmediated.secure_in f hsecure).2 ⟨callSite, hmem, hsub _ hcaller⟩
  · exact mem_inInterface_iff_of_batch hbefore (runsBatch_of_run hbatch hsplits hrun) hmediated' hopt
      hmoves

end Run

/-! An example: `main` calls `work` and `log`, and `work` calls `log` in a loop. -/

inductive LoopCall
  | work
  | log
  | logInLoop
deriving DecidableEq

instance : Fintype LoopCall where
  elems := {.work, .log, .logInLoop}
  complete c := by cases c <;> decide

def LoopCall.getCaller : LoopCall → ChainFunction
  | .work | .log => .main
  | .logInLoop => .work

def LoopCall.getCalledFunction : LoopCall → ChainFunction
  | .work => .work
  | .log | .logInLoop => .log

def loopCalls : List LoopCall := [.work, .log, .logInLoop]

def loopModule : Module ChainFunction Empty LoopCall where
  functions := chainModule.functions
  globals := []
  getName := chainModule.getName
  isDeclaration := fun _ => false
  isIntrinsic := fun _ => false
  argTypes := fun _ => []
  getReturnType := fun _ => .void
  functionSize := fun _ => 1
  returnInsts := fun _ => []
  valueClass := fun _ => .callInst

inductive LoopNode
  | function (f : ChainFunction)
  | call (c : LoopCall)
deriving DecidableEq

instance : Fintype LoopNode where
  elems := {.function .main, .function .work, .function .log, .call .work, .call .log,
    .call .logInLoop}
  complete n := by
    cases n with
    | function f => cases f <;> decide
    | call c => cases c <;> decide

def loopPDG : PDG ChainFunction Empty LoopCall LoopNode where
  kind := fun
    | .function f => .function f
    | .call c => .instruction c.getCaller
  isLLVMNode := fun _ => true
  getNodeValue := fun
    | .function _ => none
    | .call c => some c
  getParent := fun
    | .function _ => none
    | .call c => some c.getCaller
  isPointerArgOperand := fun _ => false
  outEdges := fun
    | .function _ => []
    | .call c =>
      [{ getSource := .call c, getDestination := .function c.getCalledFunction
         isControlEdge := true }]
  inEdges := fun _ => []
  hasFunctionPDG := fun _ => true
  getCallSites := fun f => (loopCalls.filter fun c => c.getCalledFunction = f).map fun c =>
    { getInstruction := c, getCaller := c.getCaller, getParent := c }
  llvmNodes := fun f => (loopCalls.filter fun c => c.getCaller = f).map fun c => (c, .call c)
  getNode := fun _ _ => none
  getFormalArgNode := fun _ _ => none
  getGlobalVariableNode := fun _ => none

def loopEnvironment : Environment ChainFunction Empty LoopCall LoopNode ℤ where
  module := loopModule
  pdg := loopPDG
  callgraph :=
    { functionNodes := [.main, .work, .log].map fun f =>
        { getFunction := f, getWeight := Weight.new } }
  loopInfoGetter := fun _ => some fun block => block = .logInLoop
  order := chainEnvironment.order
  solve := fun _ => none

theorem loop_callSitesExact : loopPDG.CallSitesExact loopModule where
  hasFunctionPDG _ _ := rfl
  caller_mem := by decide
  callee_mem := by decide
  callSite_iff := by
    have hcalls : ∀ f g v,
        (∃ callSite ∈ loopPDG.getCallSites g,
          callSite.getInstruction = v ∧ callSite.getCaller = f) ↔
        ∃ node, (v, node) ∈ loopPDG.llvmNodes f ∧
          ∃ edge ∈ loopPDG.outEdges node, edge.isControlEdge = true ∧
            loopPDG.functionOf edge.getDestination = some g := by
      decide
    intro f _ g _ v
    refine (hcalls f g v).trans (exists_congr fun node => and_congr_right fun _ => ?_)
    exact ⟨fun hedge => ⟨rfl, hedge⟩, And.right⟩

theorem loop_functionsIn : loopPDG.FunctionsIn loopModule := by
  have hmem : ∀ f, f ∈ loopModule.functions := by decide
  exact ⟨fun _ f _ => hmem f, fun _ f _ => hmem f⟩

/-- `log` is moved because of the loop, and `main` makes it an entry point. -/
theorem loop_entry_points : ∃ secure insecure S I,
    Partitioner.partition loopModule loopPDG 1 [workAnnotated] = some (secure, insecure) ∧
      run loopEnvironment secure insecure [.functionsMoveTo] = some (S, I) ∧
      .log ∉ secure.partition ∧ .log ∈ S.inInterface := by
  have hsome : ((Partitioner.partition loopModule loopPDG 1 [workAnnotated]).bind
      fun (secure, insecure) => (run loopEnvironment secure insecure [.functionsMoveTo]).map
        fun (S, I) => decide (secure.partition = {.work} ∧ insecure.partition = {.main, .log} ∧
          secure.outInterface = {.log})) = some true := by
    decide
  obtain ⟨⟨secure, insecure⟩, hpartition, hsome⟩ := Option.bind_eq_some_iff.1 hsome
  obtain ⟨⟨S, I⟩, hrun, hparts⟩ := Option.map_eq_some_iff.1 hsome
  obtain ⟨hsecure, hinsecure, hout⟩ := of_decide_eq_true hparts
  refine ⟨secure, insecure, S, I, hpartition, hrun, by rw [hsecure]; decide, ?_⟩
  have hloop : hasCallSiteInLoop secure loopEnvironment.loopInfoGetter
      (loopEnvironment.pdg.getCallSites .log) = true := by
    unfold hasCallSiteInLoop
    rw [hsecure]
    decide
  have hmoves : Moves loopModule loopPDG secure loopEnvironment.loopInfoGetter .log :=
    ⟨by rw [hout]; decide, rfl, .inr hloop⟩
  have hstays : ¬ ∃ opt ∈ [Optimization.functionsMoveTo],
      MovedBy loopEnvironment secure .main opt := by
    rintro ⟨opt, hopt, hmoved⟩
    cases List.mem_singleton.1 hopt
    have hmain : .main ∈ secure.outInterface := hmoved.1
    rw [hout] at hmain
    revert hmain
    decide
  refine ((entry_points loopEnvironment loop_callSitesExact loop_functionsIn (by decide) 1
    [workAnnotated] (by decide) secure insecure hpartition [.functionsMoveTo] S I hrun).2 (by decide)
    List.mem_cons_self .log hmoves).2 ⟨hloop, ?_⟩
  exact ⟨{ getInstruction := .log, getCaller := .main, getParent := .log }, by decide,
    by rw [hinsecure]; decide, hstays⟩

end PartitionOptimizer

end Vazgen
