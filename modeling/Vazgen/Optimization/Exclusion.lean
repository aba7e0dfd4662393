import Vazgen.Optimization.OptimizedGlobals

/-!
# Functions that are not to be moved

KERNIGHAN_LIN and ILP leave `main` and declarations where they are.  STATIC_ANALYSIS and
FUNCTIONS_MOVE_TO leave declarations, but move `main` when it is a related function, or when the
secure partition alone calls it or calls it in a loop (`excluded_stay_iff`).
-/

namespace Vazgen

open Worklist

variable {F G V N R : Type}

namespace PartitionOptimizer

variable [DecidableEq F] [DecidableEq G] [Field R] [LinearOrder R]

/-- The solver's solutions satisfy the constraints. -/
def SolverRespects (env : Environment F G V N R) : Prop :=
  ∀ (P : Partition F G) x,
    env.solve (ILPOptimization.ilpModel env.callgraph env.module P) = some x →
      (ILPOptimization.ilpModel env.callgraph env.module P).Feasible x

/-- The routes by which a run moves an insecure `main`. -/
def MovesMain (env : Environment F G V N R) (secure insecure : Partition F G)
    (opts : List Optimization) (f : F) : Prop :=
  (.staticAnalysis ∈ opts ∧ f ∈ secure.relatedFunctions) ∨
    ∃ pre post s, opts = pre ++ .functionsMoveTo :: post ∧
      pre.foldlM (runOptimization env)
        { securePartition := secure, insecurePartition := insecure } = some s ∧
      FunctionsMoveToPartitionOptimization.Moves env.module env.pdg s.securePartition
        env.loopInfoGetter f

section Run

variable {env : Environment F G V N R} {secure insecure : Partition F G} {opt : Optimization}
  {opts : List Optimization} {side : Side} {s s' t : State F G} {f : F}

theorem Collected.runOptimizer (hready : Ready env secure insecure) (hopt : Supported opt)
    (h : Collected env.callgraph secure insecure s)
    (hst : PartitionOptimizer.runOptimizer env opt side s = some s') :
    Collected env.callgraph secure insecure s' := by
  obtain ⟨s₁, hs₁, h₁⟩ := exists_runOptimizer hready hopt side h
  rw [hst] at hs₁
  cases hs₁
  exact h₁

omit [DecidableEq G] in
/-- What the Kernighan-Lin optimisation does to the partitions of a run. -/
theorem RunsKL.cases (hready : Ready env secure insecure)
    (h : Collected env.callgraph secure insecure s) (hkl : RunsKL env s s') :
    ∃ kept, (∀ f ∈ kept, f ∈ s.insecurePartition.partition ∧ env.module.isDeclaration f = false ∧
        env.module.isIntrinsic f = false ∧ env.module.getName f ≠ "main") ∧
      s'.securePartition.partition = s.securePartition.partition ∪ kept ∧
      s'.securePartition.relatedFunctions.keys = s.securePartition.relatedFunctions.keys \ kept ∧
      s'.optimizations = s.optimizations ++ [.kernighanLin] := by
  obtain ⟨P, Q, hrun, rfl⟩ := hkl
  obtain ⟨kept, P', hkept, hrelated, hpart, -, hrun'⟩ := KLOptimizer.exists_run env.order
    env.module h.disjoint fun f hf => hready.node f (h.insecure_sub hf)
  rw [hrun] at hrun'
  cases hrun'
  exact ⟨kept, fun f hf => KLOptimizer.mem_collectPassCandidates.1 (hkept f hf), hpart, hrelated, rfl⟩

/-- `f` is no candidate of KERNIGHAN_LIN and the constraints of ILP exclude it. -/
def Excluded (env : Environment F G V N R) (f : F) : Prop :=
  env.module.isDeclaration f = true ∨ env.module.getName f = "main"

/-- The state of a run that has not moved `f`. -/
structure StaysOut (env : Environment F G V N R) (secure insecure : Partition F G) (f : F)
    (s : State F G) : Prop where
  collected : Collected env.callgraph secure insecure s
  not_mem : f ∉ s.securePartition.partition
  related : f ∈ s.securePartition.relatedFunctions ↔ f ∈ secure.relatedFunctions

theorem StaysOut.step (hready : Ready env secure insecure) (hopt : Supported opt)
    (hexcluded : Excluded env f) (h : StaysOut env secure insecure f s)
    (hst : runOptimizer env opt side s = some s') : StaysOut env secure insecure f s' := by
  have hcollected := h.collected.runOptimizer hready hopt hst
  obtain ⟨obj, -, rfl⟩ | ⟨-, hkl⟩ := runOptimizer_cases hst
  · exact ⟨hcollected, h.not_mem, h.related⟩
  · obtain ⟨kept, hkept, hpart, hrelated, -⟩ := hkl.cases hready h.collected
    have hf : f ∉ kept := fun hf => by
      obtain ⟨-, hdecl, -, hmain⟩ := hkept f hf
      rcases hexcluded with hd | hm
      · rw [hdecl] at hd
        cases hd
      · exact hmain hm
    refine ⟨hcollected, ?_, ?_⟩
    · rw [hpart, Finset.mem_union, not_or]
      exact ⟨h.not_mem, hf⟩
    · rw [← h.related, ← Finmap.mem_keys, ← Finmap.mem_keys, hrelated, Finset.mem_sdiff]
      exact and_iff_left hf

variable [IsStrictOrderedRing R]

omit [DecidableEq G] in
/-- ILP moves nothing that its constraints exclude. -/
theorem mem_ilp_run (hsolve : SolverRespects env) {P : Partition F G}
    (hf : f ∈ ILPOptimization.run env.solve env.callgraph env.module P) :
    f ∈ P.partition ∨ (env.module.isDeclaration f = false ∧ env.module.getName f ≠ "main") := by
  unfold ILPOptimization.run at hf
  split at hf
  · cases hf
  · next x hx =>
    by_cases hP : f ∈ P.partition
    · exact .inl hP
    · obtain ⟨hallowed, -⟩ := ILPOptimization.feasible_iff.1 (hsolve P x hx)
      exact .inr ((ILPOptimization.admissible_movedFunctions hallowed).excluded f
        (List.mem_toFinset.2 hf) hP)

/-- Of all that is collected only FUNCTIONS_MOVE_TO for the secure partition can move `f`. -/
theorem StaysOut.movesIn_iff (hsolve : SolverRespects env) (hexcluded : Excluded env f)
    (h : StaysOut env secure insecure f s) {obj : PartitionOptimization F G}
    (hobj : Collects env s opt side obj) :
    obj.MovesIn f ↔ opt = .functionsMoveTo ∧ side = .secure ∧
      FunctionsMoveToPartitionOptimization.Moves env.module env.pdg s.securePartition
        env.loopInfoGetter f := by
  cases hobj with
  | @functionsMoveTo side moved hrun =>
    cases side with
    | secure =>
      have hmem := FunctionsMoveToPartitionOptimization.mem_run_iff hrun f
      exact ⟨fun hf => ⟨rfl, rfl, hmem.1 hf⟩, fun hf => hmem.2 hf.2.2⟩
    | insecure => exact ⟨False.elim, fun hf => nomatch hf.2.1⟩
  | ilp =>
    refine ⟨fun hf => ?_, fun hf => nomatch hf.1⟩
    rcases mem_ilp_run hsolve hf with hf | ⟨hdecl, hmain⟩
    · exact absurd hf h.not_mem
    · rcases hexcluded with hd | hm
      · rw [hdecl] at hd
        cases hd
      · exact absurd hm hmain
  | globalsMoveTo => exact ⟨False.elim, fun hf => nomatch hf.1⟩
  | duplicateFunctions => exact ⟨False.elim, fun hf => nomatch hf.1⟩
  | staticAnalysis => exact ⟨False.elim, fun hf => nomatch hf.1⟩

theorem StaysOut.exists_movesIn_iff (hsolve : SolverRespects env) (hexcluded : Excluded env f)
    (h : StaysOut env secure insecure f s) (hst : runOptimizer env opt side s = some s') :
    (∃ obj ∈ s'.optimizations, obj.MovesIn f) ↔ (∃ obj ∈ s.optimizations, obj.MovesIn f) ∨
      (opt = .functionsMoveTo ∧ side = .secure ∧
        FunctionsMoveToPartitionOptimization.Moves env.module env.pdg s.securePartition
          env.loopInfoGetter f) := by
  obtain ⟨obj, hobj, rfl⟩ | ⟨rfl, P, Q, -, rfl⟩ := runOptimizer_cases hst
  · rw [← h.movesIn_iff hsolve hexcluded hobj]
    simp [State.push, or_and_right, exists_or]
  · simp [or_and_right, exists_or, PartitionOptimization.MovesIn]

omit [IsStrictOrderedRing R] in
theorem staticAnalysis_mem_iff (hst : runOptimizer env opt side s = some s') :
    .staticAnalysis ∈ s'.optimizations ↔
      .staticAnalysis ∈ s.optimizations ∨ opt = .staticAnalysis := by
  obtain ⟨obj, hobj, rfl⟩ | ⟨rfl, P, Q, -, rfl⟩ := runOptimizer_cases hst
  · cases hobj <;> simp [State.push]
  · simp

/-- The objects of a run that concern `f`, from a state that has not moved it. -/
structure Concerns (env : Environment F G V N R) (opts : List Optimization) (f : F)
    (s t : State F G) : Prop where
  movesIn : (∃ obj ∈ t.optimizations, obj.MovesIn f) ↔ (∃ obj ∈ s.optimizations, obj.MovesIn f) ∨
    ∃ pre post u, opts = pre ++ .functionsMoveTo :: post ∧
      pre.foldlM (runOptimization env) s = some u ∧
      FunctionsMoveToPartitionOptimization.Moves env.module env.pdg u.securePartition
        env.loopInfoGetter f
  staticAnalysis : .staticAnalysis ∈ t.optimizations ↔
    .staticAnalysis ∈ s.optimizations ∨ .staticAnalysis ∈ opts

theorem StaysOut.runOptimization (hready : Ready env secure insecure) (hopt : Supported opt)
    (hsolve : SolverRespects env) (hexcluded : Excluded env f)
    (h : StaysOut env secure insecure f s)
    (hst : PartitionOptimizer.runOptimization env s opt = some t) :
    StaysOut env secure insecure f t ∧
      ((∃ obj ∈ t.optimizations, obj.MovesIn f) ↔ (∃ obj ∈ s.optimizations, obj.MovesIn f) ∨
        (opt = .functionsMoveTo ∧ FunctionsMoveToPartitionOptimization.Moves env.module env.pdg
          s.securePartition env.loopInfoGetter f)) ∧
      (.staticAnalysis ∈ t.optimizations ↔
        .staticAnalysis ∈ s.optimizations ∨ opt = .staticAnalysis) := by
  obtain ⟨s', hs', hcase⟩ := runOptimization_cases hst
  have h' := h.step hready hopt hexcluded hs'
  have hmoves := h.exists_movesIn_iff hsolve hexcluded hs'
  have hstatic := staticAnalysis_mem_iff hs'
  rcases hcase with ⟨-, ht⟩ | ⟨-, -, rfl⟩
  · refine ⟨h'.step hready hopt hexcluded ht, ?_, ?_⟩
    · rw [h'.exists_movesIn_iff hsolve hexcluded ht, hmoves]
      simp
    · rw [staticAnalysis_mem_iff ht, hstatic, or_assoc, or_self]
  · exact ⟨h', by simpa using hmoves, hstatic⟩

/-- **What a run collects for a function that it does not move.** -/
theorem StaysOut.run (hready : Ready env secure insecure) (hopts : ∀ opt ∈ opts, Supported opt)
    (hsolve : SolverRespects env) (hexcluded : Excluded env f)
    (h : StaysOut env secure insecure f s)
    (hrun : opts.foldlM (PartitionOptimizer.runOptimization env) s = some t) :
    StaysOut env secure insecure f t ∧ Concerns env opts f s t := by
  induction opts generalizing s with
  | nil =>
    cases hrun
    exact ⟨h, by simp, by simp⟩
  | cons opt opts ih =>
    rw [List.foldlM_cons] at hrun
    obtain ⟨s₁, hs₁, hrest⟩ := Option.bind_eq_some_iff.1 hrun
    obtain ⟨h₁, hmoves, hstatic⟩ :=
      h.runOptimization hready (hopts opt List.mem_cons_self) hsolve hexcluded hs₁
    obtain ⟨ht, hconcerns⟩ := ih (fun o ho => hopts o (List.mem_cons_of_mem opt ho)) h₁ hrest
    refine ⟨ht, ?_, ?_⟩
    · rw [hconcerns.movesIn, hmoves, or_assoc]
      refine or_congr_right ?_
      constructor
      · rintro (⟨rfl, hf⟩ | ⟨pre, post, u, rfl, hu, hf⟩)
        · exact ⟨[], opts, s, rfl, rfl, hf⟩
        · exact ⟨opt :: pre, post, u, rfl, by rw [List.foldlM_cons, hs₁]; exact hu, hf⟩
      · rintro ⟨pre, post, u, heq, hu, hf⟩
        cases pre with
        | nil =>
          cases heq
          cases hu
          exact .inl ⟨rfl, hf⟩
        | cons o pre =>
          cases heq
          rw [List.foldlM_cons, hs₁] at hu
          exact .inr ⟨pre, post, u, rfl, hu, hf⟩
    · rw [hconcerns.staticAnalysis, hstatic, List.mem_cons, or_assoc]
      exact or_congr_right (or_congr_left eq_comm)

/-- **When a run moves an excluded function.** -/
theorem mem_secure_iff_movesMain (hready : Ready env secure insecure)
    (hopts : ∀ opt ∈ opts, Supported opt) (hsolve : SolverRespects env)
    (hexcluded : Excluded env f) (hf : f ∉ secure.partition)
    (hrun : opts.foldlM (PartitionOptimizer.runOptimization env)
      { securePartition := secure, insecurePartition := insecure } = some t) :
    f ∈ (t.optimizations.foldl applyOptimization t).securePartition.partition ↔
      MovesMain env secure insecure opts f := by
  have hstart : StaysOut env secure insecure f
      { securePartition := secure, insecurePartition := insecure } :=
    ⟨collected_start hready, hf, Iff.rfl⟩
  obtain ⟨ht, hconcerns⟩ := hstart.run hready hopts hsolve hexcluded hrun
  rw [mem_secure_foldl_apply, hconcerns.movesIn, hconcerns.staticAnalysis, ht.related]
  simp [ht.not_mem, MovesMain, or_comm]

end Run

/-! ## Top theorem -/

/-- **When no run moves `main` or a declaration.**  No declaration is ever moved; `main` is not if
it is no related function where STATIC_ANALYSIS is on the list, and no FUNCTIONS_MOVE_TO finds the
secure partition to be its only caller or to call it in a loop. -/
theorem excluded_stay_iff [DecidableEq V] [IsStrictOrderedRing R] (env : Environment F G V N R)
    (hpdg : env.pdg.FunctionsIn env.module)
    (hgraph : ∀ f ∈ env.module.functions, env.module.isDeclaration f = false →
      env.pdg.hasFunctionPDG f = true)
    (hnode : ∀ f ∈ env.module.functions, env.callgraph.hasFunctionNode f = true)
    (hsolve : SolverRespects env) (fuel : Nat) (annotations : Annotations F)
    (secure insecure : Partition F G)
    (hpartition : Partitioner.partition env.module env.pdg fuel annotations =
      some (secure, insecure))
    (opts : List Optimization) (hopts : ∀ opt ∈ opts, Supported opt) :
    ∃ S I, run env secure insecure opts = some (S, I) ∧
      ((∀ f ∈ insecure.partition, Excluded env f → f ∈ I.partition) ↔
        ∀ f ∈ insecure.partition, env.module.getName f = "main" →
          ¬MovesMain env secure insecure opts f) := by
  have hparts := Partitioner.partitioned hpartition
  have hready := ready_of_partition hpartition hpdg hgraph hnode
  obtain ⟨s, hs, hcollected⟩ := exists_runOptimizations hready hopts (collected_start hready)
  have hpurged := purged_apply env s
  have happlied := applied_of_collected hcollected
  refine ⟨_, _, by rw [run, hs, Option.map_some], ?_⟩
  have hstays : ∀ f ∈ insecure.partition, Excluded env f →
      (f ∈ (apply env s).2.partition ↔ ¬MovesMain env secure insecure opts f) := by
    intro f hf hexcluded
    have hsecure := ((hparts.mem_insecure f).1 hf).2
    rw [← mem_secure_iff_movesMain hready hopts hsolve hexcluded hsecure hs, hpurged.insecure_eq,
      Finset.mem_sdiff]
    refine and_iff_right_of_imp fun hnot => ?_
    exact (Finset.mem_union.1 (happlied.cover (Finset.mem_union_right _ hf))).resolve_left hnot
  constructor
  · exact fun h f hf hmain => (hstays f hf (.inr hmain)).1 (h f hf (.inr hmain))
  · intro h f hf hexcluded
    refine (hstays f hf hexcluded).2 fun hmoves => ?_
    rcases hexcluded with hdecl | hmain
    · rcases hmoves with ⟨-, hrelated⟩ | ⟨pre, post, u, -, -, -, hdefined, -⟩
      · rw [Partitioner.relatedDefined_partition hpartition f hrelated] at hdecl
        cases hdecl
      · rw [hdefined] at hdecl
        cases hdecl
    · exact h f hf hmain hmoves

omit [DecidableEq F] [DecidableEq G]

/-- `main` is a related function, and `work` alone calls it. -/
theorem main_moved :
    (∃ secure insecure S I,
      Partitioner.partition keyModule keyPDG 10 [keyAnnotated] = some (secure, insecure) ∧
      run keyEnvironment secure insecure [.staticAnalysis] = some (S, I) ∧
      ¬∀ f ∈ insecure.partition, Excluded keyEnvironment f → f ∈ I.partition) ∧
    ∃ secure insecure S I,
      Partitioner.partition keyModule keyPDG 10 [keyAnnotated] = some (secure, insecure) ∧
      run keyEnvironment secure insecure [.functionsMoveTo] = some (S, I) ∧
      ¬∀ f ∈ insecure.partition, Excluded keyEnvironment f → f ∈ I.partition := by
  constructor
  · obtain ⟨secure, insecure, S, I, hpartition, hrun, h⟩ := exists_key_run [.staticAnalysis]
      (fun _ insecure _ I => KeyFunction.main ∈ insecure.partition ∧ .main ∉ I.partition)
      (by decide)
    obtain ⟨hbefore, hafter⟩ := of_decide_eq_true h
    exact ⟨secure, insecure, S, I, hpartition, hrun,
      fun hstay => hafter (hstay .main hbefore (.inr rfl))⟩
  · obtain ⟨secure, insecure, S, I, hpartition, hrun, h⟩ := exists_key_run [.functionsMoveTo]
      (fun _ insecure _ I => KeyFunction.main ∈ insecure.partition ∧ .main ∉ I.partition)
      (by decide)
    obtain ⟨hbefore, hafter⟩ := of_decide_eq_true h
    exact ⟨secure, insecure, S, I, hpartition, hrun,
      fun hstay => hafter (hstay .main hbefore (.inr rfl))⟩

theorem key_functionsIn : keyPDG.FunctionsIn keyModule := by
  have hmem : ∀ f, f ∈ keyModule.functions := by decide
  exact ⟨fun _ f _ => hmem f, fun _ f _ => hmem f⟩

open ILPOptimization in
/-- The values that the solver of the example finds. -/
theorem key_solve {secure : Partition KeyFunction KeyGlobal} {x : Var KeyFunction → ℚ}
    (hx : keyEnvironment.solve (ilpModel keyEnvironment.callgraph keyModule secure) = some x)
    (f : KeyFunction) :
    x (.node f) = if f ∉ secure.partition ∧ excluded keyModule f = true then 0 else 1 := by
  cases hx
  by_cases hmain : KeyFunction.main ∈ secure.partition <;>
    by_cases hwork : KeyFunction.work ∈ secure.partition <;>
    by_cases hlog : KeyFunction.log ∈ secure.partition <;>
    cases f <;>
    simp [keyEnvironment, keyModule, ilpModel, createConstraints, edgeVariables, excluded, hmain,
      hwork, hlog]

theorem key_solverRespects : SolverRespects keyEnvironment := by
  intro P x hx
  refine ILPOptimization.feasible_iff.2 ⟨⟨fun f _ => ?_, fun f _ hf => ?_, fun f _ hf he => ?_⟩,
    fun p hp => by simp [keyEnvironment, ILPOptimization.edgeVariables] at hp⟩
  · rw [key_solve hx]
    split <;> simp
  · rw [key_solve hx, if_neg fun h => h.1 hf]
  · exact (key_solve hx f).trans (if_pos ⟨hf, he⟩)

theorem key_excluded_iff : ∃ secure insecure S I,
    Partitioner.partition keyModule keyPDG 10 [keyAnnotated] = some (secure, insecure) ∧
    run keyEnvironment secure insecure allOptimizations = some (S, I) ∧
    ((∀ f ∈ insecure.partition, Excluded keyEnvironment f → f ∈ I.partition) ↔
      ∀ f ∈ insecure.partition, keyModule.getName f = "main" →
        ¬MovesMain keyEnvironment secure insecure allOptimizations f) := by
  obtain ⟨secure, insecure, -, -, hpartition, -, -⟩ :=
    exists_key_run [] (fun _ _ _ _ => true) (by decide)
  obtain ⟨S, I, hrun, hiff⟩ := excluded_stay_iff keyEnvironment key_functionsIn (fun _ _ _ => rfl)
    (by decide) key_solverRespects 10 [keyAnnotated] secure insecure hpartition
    allOptimizations (by decide)
  exact ⟨secure, insecure, S, I, hpartition, hrun, hiff⟩

end PartitionOptimizer

end Vazgen
