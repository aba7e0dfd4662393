import Vazgen.Optimization.OptimizerOrder
import Vazgen.Optimization.StaleGlobals

/-!
# Runs without KERNIGHAN_LIN

Each optimisation of such a run decides on the partitions as they were, so the partitions that are
returned can be read off the list of optimisations (`run_eq_batch`).  What FUNCTIONS_MOVE_TO collects
for the insecure partition is secure and stays so: that object has no effect at all.
-/

namespace Vazgen

open Batch

variable {F G V N R : Type}

namespace PartitionOptimizer

section Batch

variable [DecidableEq F] [DecidableEq G] [Zero R] [One R] [Add R] [Neg R] [Sub R] [Mul R]
  [DecidableEq R] (env : Environment F G V N R) (secure insecure : Partition F G)

/-- What an optimisation moves into the secure partition. -/
def MovedBy (f : F) : Optimization → Prop
  | .functionsMoveTo =>
    FunctionsMoveToPartitionOptimization.Moves env.module env.pdg secure env.loopInfoGetter f
  | .ilp => f ∈ ILPOptimization.run env.solve env.callgraph env.module secure
  | .staticAnalysis => f ∈ secure.relatedFunctions
  | .globalsMoveTo | .duplicateFunctions | .kernighanLin | .optNum => False

/-- What a run without KERNIGHAN_LIN makes of the partitions `secure` and `insecure`. -/
structure RunsBatch (opts : List Optimization) (S I : Partition F G) : Prop where
  mem_secure : ∀ f, f ∈ S.partition ↔ f ∈ secure.partition ∨ ∃ opt ∈ opts, MovedBy env secure f opt
  insecure_eq : I.partition = insecure.partition \ S.partition
  secureRelated : ∀ f, S.relatedFunctions.lookup f =
    if f ∈ S.partition then none else secure.relatedFunctions.lookup f
  insecureRelated : I.relatedFunctions = insecure.relatedFunctions
  secureGlobals : S.partitionGlobals =
    if .globalsMoveTo ∈ opts then secure.partitionGlobals \ insecure.partitionGlobals
    else secure.partitionGlobals
  insecureGlobals : I.partitionGlobals =
    if .globalsMoveTo ∈ opts then insecure.partitionGlobals \ secure.partitionGlobals
    else insecure.partitionGlobals
  secureInterfaced : Interfaced env.module env.pdg S
  insecureInterfaced : Interfaced env.module env.pdg I

variable {env secure insecure} {opt : Optimization} {opts : List Optimization} {s : State F G}
  {objs : List (PartitionOptimization F G)} {f : F}

/-- What the objects of one optimisation move. -/
theorem collect_cases (h : collect env s opt = some objs) :
    ((∃ obj ∈ objs, obj.MovesIn f ∨ obj = .staticAnalysis ∧ f ∈ s.securePartition.relatedFunctions) ↔
      MovedBy env s.securePartition f opt) ∧
    ∀ obj ∈ objs, obj.MovesOut f → f ∈ s.insecurePartition.outInterface := by
  cases opt with
  | functionsMoveTo =>
    obtain ⟨secureFs, hsecure, h⟩ := Option.bind_eq_some_iff.1 h
    obtain ⟨insecureFs, hinsecure, rfl⟩ := Option.map_eq_some_iff.1 h
    have hin := FunctionsMoveToPartitionOptimization.mem_run_iff hsecure f
    have hout := FunctionsMoveToPartitionOptimization.mem_run_iff hinsecure f
    constructor
    · simp [PartitionOptimization.MovesIn, MovedBy, hin]
    · simp only [List.forall_mem_cons, PartitionOptimization.MovesOut, hout]
      exact ⟨False.elim, And.left, List.forall_mem_nil _⟩
  | globalsMoveTo =>
    cases h
    simp [PartitionOptimization.MovesIn, PartitionOptimization.MovesOut, MovedBy]
  | duplicateFunctions => cases h
  | kernighanLin => cases h
  | staticAnalysis =>
    cases h
    simp [PartitionOptimization.MovesIn, PartitionOptimization.MovesOut, MovedBy]
  | ilp =>
    cases h
    simp [PartitionOptimization.MovesIn, PartitionOptimization.MovesOut, MovedBy]
  | optNum => cases h

/-- What the objects of a batch move. -/
theorem collectAll_cases (h : collectAll (collect env s) opts = some objs) :
    ((∃ obj ∈ objs, obj.MovesIn f ∨ obj = .staticAnalysis ∧ f ∈ s.securePartition.relatedFunctions) ↔
      ∃ opt ∈ opts, MovedBy env s.securePartition f opt) ∧
    ∀ obj ∈ objs, obj.MovesOut f → f ∈ s.insecurePartition.outInterface := by
  constructor
  · constructor
    · rintro ⟨obj, hobj, hmoves⟩
      obtain ⟨opt, hopt, js, hjs, hmem⟩ := (mem_collectAll h obj).1 hobj
      exact ⟨opt, hopt, (collect_cases hjs).1.1 ⟨obj, hmem, hmoves⟩⟩
    · rintro ⟨opt, hopt, hmoved⟩
      obtain ⟨js, hjs⟩ := exists_collectAll_iff.1 ⟨objs, h⟩ opt hopt
      obtain ⟨obj, hmem, hmoves⟩ := (collect_cases hjs).1.2 hmoved
      exact ⟨obj, (mem_collectAll h obj).2 ⟨opt, hopt, js, hjs, hmem⟩, hmoves⟩
  · intro obj hobj
    obtain ⟨opt, -, js, hjs, hmem⟩ := (mem_collectAll h obj).1 hobj
    exact (collect_cases hjs).2 obj hmem

variable [SMul ℤ R] [LT R] [DecidableLT R] [LE R] [DecidableLE R]

/-- What a run of a batch returns. -/
theorem runsBatch_of_run (hopts : ∀ opt ∈ opts, InBatch opt)
    (hout : ∀ f ∈ insecure.outInterface, f ∈ secure.partition) {S I : Partition F G}
    (h : run env secure insecure opts = some (S, I)) : RunsBatch env secure insecure opts S I := by
  obtain ⟨s, hs, happly⟩ := run_cases h
  rw [runOptimizations_eq_collectAll env hopts] at hs
  obtain ⟨objs, hobjs, rfl⟩ := Option.map_eq_some_iff.1 hs
  have hoptimized := optimized_apply env
    (State.pushAll { securePartition := secure, insecurePartition := insecure } objs)
  rw [happly] at hoptimized
  have hsecure : ∀ f, f ∈ S.partition ↔
      f ∈ secure.partition ∨ ∃ opt ∈ opts, MovedBy env secure f opt := by
    intro f
    rw [hoptimized.secure, ← (collectAll_cases hobjs).1]
    simp [State.pushAll, and_or_left, exists_or]
  refine ⟨hsecure, ?_, hoptimized.secureRelated, hoptimized.insecureRelated, ?_, ?_,
    hoptimized.secureInterfaced, hoptimized.insecureInterfaced⟩
  · ext f
    rw [hoptimized.insecure, Finset.mem_sdiff]
    refine and_congr_left fun hf => or_iff_left ?_
    rintro ⟨obj, hobj, hmoves⟩
    -- what would be moved out is secure
    exact hf ((hsecure f).2 (.inl (hout f ((collectAll_cases hobjs).2 obj hobj hmoves))))
  · split
    · next hglobals => exact (globals_of_run_globalsMoveTo hglobals h).1
    · next hglobals => exact (globals_of_run hglobals h).1
  · split
    · next hglobals => exact (globals_of_run_globalsMoveTo hglobals h).2
    · next hglobals => exact (globals_of_run hglobals h).2

variable [DecidableEq V]

/-- **What a run without KERNIGHAN_LIN returns**, for any list of optimisations after partitioning.
Neither the order of the list nor the order in which sets are iterated over has any influence. -/
theorem run_eq_batch (env : Environment F G V N R) (hpdg : env.pdg.FunctionsIn env.module)
    (hgraph : ∀ f ∈ env.module.functions, env.module.isDeclaration f = false →
      env.pdg.hasFunctionPDG f = true)
    (hnode : ∀ f, env.callgraph.hasFunctionNode f = true ↔ f ∈ env.module.functions)
    (fuel : Nat) (annotations : Annotations F) (secure insecure : Partition F G)
    (hpartition : Partitioner.partition env.module env.pdg fuel annotations =
      some (secure, insecure))
    (opts : List Optimization) (hopts : ∀ opt ∈ opts, Supported opt ∧ opt ≠ .kernighanLin) :
    ∃ S I, run env secure insecure opts = some (S, I) ∧
      RunsBatch env secure insecure opts S I := by
  have hsplits := splits_of_partition hpdg hgraph hnode hpartition
  obtain ⟨-, S, I, -, -, hrun⟩ := exists_run hsplits.ready fun opt hopt => (hopts opt hopt).1
  exact ⟨S, I, hrun, runsBatch_of_run (fun opt hopt => ⟨(hopts opt hopt).2, (hopts opt hopt).1.1⟩)
    hsplits.insecure_out hrun⟩

end Batch

/-- The chain: whatever the order is, `log` is moved and `main` stays. -/
theorem chain_run_eq_batch : ∃ secure insecure S I,
    Partitioner.partition chainModule chainPDG 1 [workAnnotated] = some (secure, insecure) ∧
      run chainEnvironment secure insecure [.ilp, .globalsMoveTo, .functionsMoveTo, .ilp] =
        some (S, I) ∧
      RunsBatch chainEnvironment secure insecure [.ilp, .globalsMoveTo, .functionsMoveTo, .ilp]
        S I := by
  obtain ⟨secure, insecure, h⟩ := chain_partition
  obtain ⟨S, I, hrun, hbatch⟩ := run_eq_batch chainEnvironment chain_functionsIn (fun _ _ _ => rfl)
    (by decide) 1 [workAnnotated] secure insecure h
    [.ilp, .globalsMoveTo, .functionsMoveTo, .ilp] (by decide)
  exact ⟨secure, insecure, S, I, h, hrun, hbatch⟩

theorem chain_run_congr_between : ∃ secure insecure,
    Partitioner.partition chainModule chainPDG 1 [workAnnotated] = some (secure, insecure) ∧
      run chainEnvironment secure insecure
          ([.kernighanLin] ++ [.ilp, .functionsMoveTo] ++ [.kernighanLin]) =
        run chainEnvironment secure insecure
          ([.kernighanLin] ++ [.functionsMoveTo, .ilp, .functionsMoveTo] ++ [.kernighanLin]) := by
  obtain ⟨secure, insecure, h⟩ := chain_partition
  refine ⟨secure, insecure, h, run_congr_between chainEnvironment secure insecure [.kernighanLin]
    [.ilp, .functionsMoveTo] [.functionsMoveTo, .ilp, .functionsMoveTo] [.kernighanLin] (by decide)
    (fun opt => ?_) (by decide)⟩
  cases opt <;> decide

end PartitionOptimizer

end Vazgen
