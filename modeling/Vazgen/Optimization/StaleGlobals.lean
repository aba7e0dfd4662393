import Vazgen.Optimization.Exclusion
import Vazgen.Optimization.KLGains

/-!
# Globals of partitions whose functions have moved

`PartitionOptimizer::apply` computes the interfaces of the two partitions anew, but not their
globals.  So the globals are those of the functions, whatever is run, only if no function that can
be moved matters for them (`globals_fresh_iff`).
-/

namespace Vazgen

open Worklist

variable {F G V N R : Type}

namespace PartitionOptimizer

section Movable

variable (M : Module F G V) (pdg : PDG F G V N) (secure insecure : Partition F G)

/-- A function that KERNIGHAN_LIN or ILP may move. -/
def Candidate (f : F) : Prop :=
  f ∈ insecure.partition ∧ M.isDeclaration f = false ∧ M.getName f ≠ "main"

/-- A function that some run moves: `main` is moved as a related function, or by FUNCTIONS_MOVE_TO
after KERNIGHAN_LIN. -/
def Movable (f : F) : Prop :=
  f ∈ insecure.partition ∧ M.isDeclaration f = false ∧
    (M.getName f ≠ "main" ∨ f ∈ secure.relatedFunctions ∨
      (f ∈ secure.outInterface ∧
        (pdg.getCallSites f = [] ∨ ∃ callSite ∈ pdg.getCallSites f,
          callSite.getCaller ∈ secure.partition ∨ Candidate M insecure callSite.getCaller)))

variable {M pdg secure insecure} in
theorem Candidate.movable {f : F} (h : Candidate M insecure f) : Movable M pdg secure insecure f :=
  ⟨h.1, h.2.1, .inl h.2.2⟩

end Movable

section Run

variable [DecidableEq F] [DecidableEq G] [Field R] [LinearOrder R]
  {env : Environment F G V N R} {secure insecure : Partition F G} {opt : Optimization}
  {side : Side} {s s' : State F G} {f : F}

/-- The partitions to be optimised split the functions, as do their interfaces. -/
structure Splits (env : Environment F G V N R) (secure insecure : Partition F G) : Prop where
  ready : Ready env secure insecure
  secure_out : ∀ f ∈ secure.outInterface, f ∈ insecure.partition
  insecure_out : ∀ f ∈ insecure.outInterface, f ∈ secure.partition
  node : ∀ f, env.callgraph.hasFunctionNode f = true →
    f ∈ secure.partition ∨ f ∈ insecure.partition
  related : ∀ f ∈ secure.relatedFunctions, env.module.isDeclaration f = false ∧
    (f ∈ secure.partition ∨ f ∈ insecure.partition)

/-- The state of a run: only candidates have been moved, and only movable functions have been
collected. -/
structure MovesOnly (env : Environment F G V N R) (secure insecure : Partition F G) (s : State F G) :
    Prop where
  collected : Collected env.callgraph secure insecure s
  secure_cases : ∀ f ∈ s.securePartition.partition,
    f ∈ secure.partition ∨ Candidate env.module insecure f
  movesIn : ∀ obj ∈ s.optimizations, ∀ f, obj.MovesIn f →
    f ∈ secure.partition ∨ Movable env.module env.pdg secure insecure f
  movesOut : ∀ obj ∈ s.optimizations, ∀ f, obj.MovesOut f → f ∈ insecure.outInterface

omit [DecidableEq G] [Field R] [LinearOrder R] in
/-- What FUNCTIONS_MOVE_TO moves is movable. -/
theorem movable_of_moves (hsplits : Splits env secure insecure)
    (h : MovesOnly env secure insecure s)
    (hmoves : FunctionsMoveToPartitionOptimization.Moves env.module env.pdg s.securePartition
      env.loopInfoGetter f) : Movable env.module env.pdg secure insecure f := by
  obtain ⟨hout, hdecl, hcalls⟩ := hmoves
  rw [h.collected.secure_out] at hout
  refine ⟨hsplits.secure_out f hout, hdecl, .inr (.inr ⟨hout, ?_⟩)⟩
  rcases hcalls with hcalls | hcalls
  · cases hsites : env.pdg.getCallSites f with
    | nil => exact .inl rfl
    | cons callSite callSites =>
      rw [hsites] at hcalls
      have hin := List.any_eq_false.1 hcalls callSite List.mem_cons_self
      exact .inr ⟨callSite, List.mem_cons_self, h.secure_cases _ (by simpa using hin)⟩
  · obtain ⟨callSite, hmem, hcall⟩ := List.any_eq_true.1 hcalls
    refine .inr ⟨callSite, hmem, h.secure_cases _ ?_⟩
    split at hcall
    · next hcaller => exact hcaller
    · cases hcall

variable [IsStrictOrderedRing R]

omit [DecidableEq G] in
theorem movable_of_ilp (hsplits : Splits env secure insecure) (hsolve : SolverRespects env)
    (h : MovesOnly env secure insecure s)
    (hf : f ∈ ILPOptimization.run env.solve env.callgraph env.module s.securePartition) :
    f ∈ secure.partition ∨ Movable env.module env.pdg secure insecure f := by
  rcases mem_ilp_run hsolve hf with hsecure | ⟨hdecl, hmain⟩
  · exact (h.secure_cases f hsecure).imp_right Candidate.movable
  · refine (hsplits.node f ?_).imp_right fun hins => ⟨hins, hdecl, .inl hmain⟩
    unfold ILPOptimization.run at hf
    split at hf
    · cases hf
    · obtain ⟨node, hnode, rfl⟩ := List.mem_map.1 hf
      exact CallGraph.hasFunctionNode_iff.2 ⟨node, (List.mem_filter.1 hnode).1, rfl⟩

theorem MovesOnly.collects (hsplits : Splits env secure insecure) (hsolve : SolverRespects env)
    (h : MovesOnly env secure insecure s) {obj : PartitionOptimization F G}
    (hobj : Collects env s opt side obj) :
    (∀ f, obj.MovesIn f → f ∈ secure.partition ∨ Movable env.module env.pdg secure insecure f) ∧
      ∀ f, obj.MovesOut f → f ∈ insecure.outInterface := by
  cases hobj with
  | @functionsMoveTo side moved hrun =>
    have hmem := FunctionsMoveToPartitionOptimization.mem_run_iff hrun
    cases side with
    | secure =>
      exact ⟨fun f hf => .inr (movable_of_moves hsplits h ((hmem f).1 hf)), fun _ hf => hf.elim⟩
    | insecure =>
      refine ⟨fun _ hf => hf.elim, fun f hf => ?_⟩
      rw [← h.collected.insecure_out]
      exact ((hmem f).1 hf).1
  | ilp => exact ⟨fun f hf => movable_of_ilp hsplits hsolve h hf, fun _ hf => hf.elim⟩
  | globalsMoveTo => exact ⟨fun _ hf => hf.elim, fun _ hf => hf.elim⟩
  | duplicateFunctions => exact ⟨fun _ hf => hf.elim, fun _ hf => hf.elim⟩
  | staticAnalysis => exact ⟨fun _ hf => hf.elim, fun _ hf => hf.elim⟩

theorem MovesOnly.step (hsplits : Splits env secure insecure) (hsolve : SolverRespects env)
    (hopt : Supported opt) (h : MovesOnly env secure insecure s)
    (hst : runOptimizer env opt side s = some s') : MovesOnly env secure insecure s' := by
  have hcollected := h.collected.runOptimizer hsplits.ready hopt hst
  obtain ⟨obj, hobj, rfl⟩ | ⟨-, hkl⟩ := runOptimizer_cases hst
  · obtain ⟨hin, hout⟩ := h.collects hsplits hsolve hobj
    refine ⟨hcollected, h.secure_cases, fun o ho => ?_, fun o ho => ?_⟩
    · rcases List.mem_append.1 ho with ho | ho
      · exact h.movesIn o ho
      · rw [List.mem_singleton.1 ho]
        exact hin
    · rcases List.mem_append.1 ho with ho | ho
      · exact h.movesOut o ho
      · rw [List.mem_singleton.1 ho]
        exact hout
  · obtain ⟨kept, hkept, hpart, -, hobjs⟩ := hkl.cases hsplits.ready h.collected
    refine ⟨hcollected, fun f hf => ?_, fun o ho => ?_, fun o ho => ?_⟩
    · rw [hpart, Finset.mem_union] at hf
      rcases hf with hf | hf
      · exact h.secure_cases f hf
      · obtain ⟨hins, hdecl, -, hmain⟩ := hkept f hf
        exact .inr ⟨h.collected.insecure_sub hins, hdecl, hmain⟩
    · rw [hobjs, List.mem_append] at ho
      rcases ho with ho | ho
      · exact h.movesIn o ho
      · rw [List.mem_singleton.1 ho]
        exact fun _ hf => hf.elim
    · rw [hobjs, List.mem_append] at ho
      rcases ho with ho | ho
      · exact h.movesOut o ho
      · rw [List.mem_singleton.1 ho]
        exact fun _ hf => hf.elim

/-- **What a run moves.**  The secure partition gains movable functions, and the insecure one keeps
the others. -/
theorem exists_run_moves (hsplits : Splits env secure insecure) (hsolve : SolverRespects env)
    (opts : List Optimization) (hopts : ∀ opt ∈ opts, Supported opt) :
    ∃ S I, run env secure insecure opts = some (S, I) ∧
      (∀ f ∈ secure.partition, f ∈ S.partition) ∧
      (∀ f ∈ S.partition, f ∈ secure.partition ∨ Movable env.module env.pdg secure insecure f) ∧
      ∀ f, f ∈ I.partition ↔ f ∈ insecure.partition ∧ f ∉ S.partition := by
  obtain ⟨s, hs, hcollected⟩ :=
    exists_runOptimizations hsplits.ready hopts (collected_start hsplits.ready)
  have hmoves : MovesOnly env secure insecure s :=
    runOptimizations_induct (fun opt hopt _ _ _ hs hst => hs.step hsplits hsolve (hopts opt hopt) hst)
      ⟨collected_start hsplits.ready, fun f hf => .inl hf, (fun _ ho => nomatch ho),
        (fun _ ho => nomatch ho)⟩ hs
  have hpurged := purged_apply env s
  have happlied := applied_of_collected hcollected
  have hkeep : ∀ f ∈ secure.partition, f ∈ (apply env s).1.partition := fun f hf => by
    rw [hpurged.secure_eq]
    exact happlied.secure_sub hf
  refine ⟨_, _, by rw [run, hs, Option.map_some], hkeep, fun f hf => ?_, fun f => ?_⟩
  · rw [hpurged.secure_eq, mem_secure_foldl_apply] at hf
    rcases hf with hf | ⟨obj, hobj, hf⟩ | ⟨-, hf⟩
    · exact (hmoves.secure_cases f hf).imp_right Candidate.movable
    · exact hmoves.movesIn obj hobj f hf
    · have hrelated : f ∈ secure.relatedFunctions :=
        Finmap.mem_keys.1 (hcollected.related (Finmap.mem_keys.2 hf))
      obtain ⟨hdecl, hmem⟩ := hsplits.related f hrelated
      exact hmem.imp_right fun hins => ⟨hins, hdecl, .inr (.inl hrelated)⟩
  · rw [hpurged.insecure_eq, hpurged.secure_eq, Finset.mem_sdiff]
    refine and_congr_left fun hnot => ⟨fun hf => ?_, fun hf => ?_⟩
    · rcases mem_insecure_of_foldl_apply hf with hf | ⟨obj, hobj, hf⟩
      · exact hcollected.insecure_sub hf
      · have hsecure := hsplits.insecure_out f (hmoves.movesOut obj hobj f hf)
        exact absurd (hpurged.secure_eq ▸ hkeep f hsecure) hnot
    · exact (Finset.mem_union.1 (happlied.cover (Finset.mem_union_right _ hf))).resolve_left hnot

end Run

/-! ## A run that moves everything movable -/

section Free

variable [DecidableEq F] [DecidableEq G] [Field R] [LinearOrder R] {M : Module F G V}
  {pdg : PDG F G V N} {secure insecure S I : Partition F G} {order : IterationOrder F} {f : F}

/-- No call weighs anything, every call stands in a loop, and the solver fails. -/
def freeEnvironment (M : Module F G V) (pdg : PDG F G V N) (order : IterationOrder F) :
    Environment F G V N R where
  module := M
  pdg := pdg
  callgraph :=
    { functionNodes := M.functions.map fun f => { getFunction := f, getWeight := Weight.new } }
  loopInfoGetter _ := some fun _ => true
  order := order
  solve _ := none

omit [DecidableEq G] [LinearOrder R] in
theorem hasFunctionNode_free (f : F) :
    (freeEnvironment (R := R) M pdg order).callgraph.hasFunctionNode f = true ↔ f ∈ M.functions := by
  rw [CallGraph.hasFunctionNode_iff]
  simp [freeEnvironment]

/-- KERNIGHAN_LIN moves all its candidates. -/
theorem exists_runKL_free
    (hsplits : Splits (freeEnvironment (R := R) M pdg order) secure insecure)
    (hintrinsic : ∀ f, M.isIntrinsic f = true → M.isDeclaration f = true) :
    ∃ s, runOptimization (freeEnvironment (R := R) M pdg order)
        { securePartition := secure, insecurePartition := insecure } .kernighanLin = some s ∧
      (∀ f, f ∈ s.securePartition.partition ↔ f ∈ secure.partition ∨ Candidate M insecure f) ∧
      s.securePartition.outInterface = secure.outInterface := by
  have hcand : ∀ f ∈ KLOptimizer.collectPassCandidates order M insecure, f ∈ insecure.partition :=
    fun f hf => (KLOptimizer.mem_collectPassCandidates.1 hf).1
  have hisolated : KLOptimizationPass.Isolated
      (freeEnvironment (R := R) M pdg order).callgraph := by
    intro node hnode
    obtain ⟨f, -, rfl⟩ := List.mem_map.1 hnode
    exact ⟨rfl, rfl, rfl⟩
  obtain ⟨P, Q, hrun, hpart, hout⟩ := KLOptimizationPass.run_isolated hisolated
    ((order.nodup insecure.partition).filter _) hcand
    (fun f hf hs => Finset.disjoint_left.1 hsplits.ready.disjoint hs (hcand f hf))
    (fun f hf => hsplits.ready.node f (hcand f hf))
  have hrunKL : runOptimizer (freeEnvironment (R := R) M pdg order) .kernighanLin .secure
      { securePartition := secure, insecurePartition := insecure } =
      some { securePartition := P, insecurePartition := Q, optimizations := [.kernighanLin] } :=
    Option.map_eq_some_iff.2 ⟨(P, Q), hrun, rfl⟩
  refine ⟨_, by rw [runOptimization, hrunKL]; rfl, fun f => ?_, hout⟩
  rw [hpart, Finset.mem_union, List.mem_toFinset]
  refine or_congr_right (KLOptimizer.mem_collectPassCandidates.trans ?_)
  unfold Candidate
  refine and_congr_right fun _ => and_congr_right fun hdecl => and_iff_right ?_
  exact Bool.eq_false_iff.2 fun hi => by simp [hintrinsic f hi] at hdecl

variable [IsStrictOrderedRing R]

theorem mem_of_movable (hsplits : Splits (freeEnvironment (R := R) M pdg order) secure insecure)
    (hintrinsic : ∀ f, M.isIntrinsic f = true → M.isDeclaration f = true)
    (hrun : run (freeEnvironment (R := R) M pdg order) secure insecure
      [.kernighanLin, .functionsMoveTo, .staticAnalysis] = some (S, I))
    (hf : Movable M pdg secure insecure f) : f ∈ S.partition := by
  obtain ⟨hins, hdecl, hroute⟩ := hf
  obtain ⟨s₁, hstep, hmem₁, hout⟩ := exists_runKL_free hsplits hintrinsic
  obtain ⟨s, hs, happly⟩ := run_cases hrun
  have hpurged := purged_apply (freeEnvironment (R := R) M pdg order) s
  rw [happly] at hpurged
  rw [hpurged.secure_eq]
  by_cases hmain : M.getName f = "main"
  · have hsecure : f ∉ secure.partition := fun hs =>
      Finset.disjoint_left.1 hsplits.ready.disjoint hs hins
    rw [mem_secure_iff_movesMain hsplits.ready (by decide) (fun _ _ hx => nomatch hx) (.inr hmain)
      hsecure hs]
    rcases hroute with hne | hrelated | ⟨hinterface, hcalls⟩
    · exact absurd hmain hne
    · exact .inl ⟨by decide, hrelated⟩
    · refine .inr ⟨[.kernighanLin], [.staticAnalysis], s₁, rfl, ?_, hout ▸ hinterface, hdecl, ?_⟩
      · rw [List.foldlM_cons, hstep]
        rfl
      · rcases hcalls with hnil | ⟨callSite, hmem, hcaller⟩
        · left
          show FunctionsMoveToPartitionOptimization.hasCallSiteOutsidePartition s₁.securePartition
            (pdg.getCallSites f) = false
          rw [hnil]
          rfl
        · exact .inr (List.any_eq_true.2 ⟨callSite, hmem, if_pos ((hmem₁ _).2 hcaller)⟩)
  · rw [List.foldlM_cons, hstep] at hs
    have hmem : f ∈ s.securePartition.partition := by
      refine runOptimizations_induct (P := fun s : State F G => f ∈ s.securePartition.partition)
        (fun opt hopt side u u' hu hst => ?_) ?_ hs
      · obtain ⟨obj, -, rfl⟩ | ⟨rfl, -⟩ := runOptimizer_cases hst
        · exact hu
        · exact absurd hopt (by decide)
      · exact (hmem₁ f).2 (.inr ⟨hins, hdecl, hmain⟩)
    exact mem_secure_foldl_apply.2 (.inl hmem)

end Free

/-! ## Top theorem -/

section Top

variable [DecidableEq F] [DecidableEq G] [DecidableEq V]

/-- The globals of a partition are those of its functions. -/
def GlobalsFresh (M : Module F G V) (pdg : PDG F G V N) (P : Partition F G) : Prop :=
  partitionGlobals M pdg P.partition = some P.partitionGlobals

omit [DecidableEq V] in
/-- Globals taken over from another partition are fresh if the functions of both use the same. -/
theorem globalsFresh_iff {M : Module F G V} {pdg : PDG F G V N} {P Q : Partition F G}
    (hP : GlobalsFresh M pdg P) (hQ : Q.partitionGlobals = P.partitionGlobals) :
    GlobalsFresh M pdg Q ↔ ∀ g ∈ M.globals,
      ((∃ f ∈ Q.partition, pdg.UsesGlobal f g) ↔ ∃ f ∈ P.partition, pdg.UsesGlobal f g) := by
  obtain ⟨globals, hglobals⟩ := exists_partitionGlobals hP Q.partition
  rw [GlobalsFresh, hglobals, hQ, Option.some_inj, Finset.ext_iff]
  refine ⟨fun h g hg => ?_, fun h g => ?_⟩
  · have hsame := h g
    rw [mem_partitionGlobals hglobals, mem_partitionGlobals hP] at hsame
    simpa only [hg, true_and] using hsame
  · rw [mem_partitionGlobals hglobals, mem_partitionGlobals hP]
    exact and_congr_right (h g)

/-- Whatever the call graph, the loops and the solver are, and whatever optimisations are run, save
GLOBALS_MOVE_TO: the globals of both partitions are those of their functions afterwards. -/
def KeepsGlobals (R : Type) [Field R] [LinearOrder R] (M : Module F G V) (pdg : PDG F G V N)
    (secure insecure : Partition F G) : Prop :=
  ∀ env : Environment F G V N R, env.module = M → env.pdg = pdg →
    (∀ f, env.callgraph.hasFunctionNode f = true ↔ f ∈ M.functions) → SolverRespects env →
    ∀ opts, (∀ opt ∈ opts, Supported opt) → .globalsMoveTo ∉ opts →
      ∃ S I, run env secure insecure opts = some (S, I) ∧ GlobalsFresh M pdg S ∧
        GlobalsFresh M pdg I

theorem splits_of_partition {env : Environment F G V N R} (hpdg : env.pdg.FunctionsIn env.module)
    (hgraph : ∀ f ∈ env.module.functions, env.module.isDeclaration f = false →
      env.pdg.hasFunctionPDG f = true)
    (hnode : ∀ f, env.callgraph.hasFunctionNode f = true ↔ f ∈ env.module.functions)
    {fuel : Nat} {annotations : Annotations F} {secure insecure : Partition F G}
    (hpartition : Partitioner.partition env.module env.pdg fuel annotations =
      some (secure, insecure)) : Splits env secure insecure := by
  have hparts := Partitioner.partitioned hpartition
  have hcover : ∀ f ∈ env.module.functions, f ∈ secure.partition ∨ f ∈ insecure.partition :=
    fun f hf => (Decidable.em (f ∈ secure.partition)).imp_right fun hs =>
      (hparts.mem_insecure f).2 ⟨hf, hs⟩
  have hout : ∀ P : Partition F G, Interfaced env.module env.pdg P →
      ∀ f ∈ P.outInterface, f ∉ P.partition ∧ f ∈ env.module.functions := by
    intro P hP f hf
    rw [hP.outInterface, mem_computeOutInterface] at hf
    obtain ⟨hnot, g, -, -, hcalled⟩ := hf
    obtain ⟨v, node, -, -, edge, -, -, hfunction⟩ := (mem_calledFunctions _ _ _ _).1 hcalled
    exact ⟨hnot, hpdg.function _ f hfunction⟩
  refine ⟨ready_of_partition hpartition hpdg hgraph fun f hf => (hnode f).2 hf, fun f hf => ?_,
    fun f hf => ?_, fun f hf => hcover f ((hnode f).1 hf), fun f hf => ⟨?_, ?_⟩⟩
  · obtain ⟨hnot, hmem⟩ := hout secure hparts.secure_interfaced f hf
    exact (hcover f hmem).resolve_left hnot
  · obtain ⟨hnot, hmem⟩ := hout insecure hparts.insecure_interfaced f hf
    exact (hcover f hmem).resolve_right hnot
  · exact Partitioner.relatedDefined_partition hpartition f hf
  · exact hcover f (Partitioner.relatedIn_partition hpdg hpartition f hf)

variable [Field R] [LinearOrder R] [IsStrictOrderedRing R]

variable (R) in
/-- **When the globals stay those of the functions**: when every global that a movable function uses
is used by a secure function and by an insecure one that is not movable.  The condition is the same
for every list of optimisations and every call graph.  That it is necessary is shown at
`freeEnvironment`, whose call graph has no edges and where every call is in a loop: there three
optimisations move every movable function. -/
theorem globals_fresh_iff (M : Module F G V) (pdg : PDG F G V N) (hpdg : pdg.FunctionsIn M)
    (hgraph : ∀ f ∈ M.functions, M.isDeclaration f = false → pdg.hasFunctionPDG f = true)
    (hintrinsic : ∀ f, M.isIntrinsic f = true → M.isDeclaration f = true)
    (fuel : Nat) (annotations : Annotations F) (secure insecure : Partition F G)
    (hpartition : Partitioner.partition M pdg fuel annotations = some (secure, insecure)) :
    KeepsGlobals R M pdg secure insecure ↔
      ∀ g ∈ M.globals, ∀ f, Movable M pdg secure insecure f → pdg.UsesGlobal f g →
        (∃ f' ∈ secure.partition, pdg.UsesGlobal f' g) ∧
          ∃ f' ∈ insecure.partition, ¬Movable M pdg secure insecure f' ∧ pdg.UsesGlobal f' g := by
  obtain ⟨hsecure, hinsecure⟩ := Partitioner.partitionGlobals_partition hpartition
  constructor
  · intro hkeeps g hg f hf huses
    let order : IterationOrder F :=
      { list := Finset.toList
        nodup := Finset.nodup_toList
        mem := fun _ _ => Finset.mem_toList }
    have hsplits : Splits (freeEnvironment (R := R) M pdg order) secure insecure :=
      splits_of_partition hpdg hgraph hasFunctionNode_free hpartition
    have hsolve : SolverRespects (freeEnvironment (R := R) M pdg order) := fun _ _ hx => nomatch hx
    obtain ⟨S, I, hrun, hS, hI⟩ := hkeeps (freeEnvironment M pdg order) rfl rfl
      hasFunctionNode_free hsolve [.kernighanLin, .functionsMoveTo, .staticAnalysis] (by decide)
      (by decide)
    obtain ⟨S', I', hrun', -, -, hmemI⟩ := exists_run_moves hsplits hsolve
      [.kernighanLin, .functionsMoveTo, .staticAnalysis] (by decide)
    rw [hrun] at hrun'
    cases hrun'
    obtain ⟨hglobalsS, hglobalsI⟩ := globals_of_run (by decide) hrun
    have hmoves : ∀ f, Movable M pdg secure insecure f → f ∈ S.partition :=
      fun f hf => mem_of_movable hsplits hintrinsic hrun hf
    constructor
    · exact ((globalsFresh_iff hsecure hglobalsS).1 hS g hg).1 ⟨f, hmoves f hf, huses⟩
    · obtain ⟨f', hf', huses'⟩ :=
        ((globalsFresh_iff hinsecure hglobalsI).1 hI g hg).2 ⟨f, hf.1, huses⟩
      obtain ⟨hins, hnot⟩ := (hmemI f').1 hf'
      exact ⟨f', hins, fun hmov => hnot (hmoves f' hmov), huses'⟩
  · rintro hcond env rfl rfl hnode hsolve opts hopts hglobals
    have hsplits := splits_of_partition hpdg hgraph hnode hpartition
    obtain ⟨S, I, hrun, hkeep, hmoved, hmemI⟩ := exists_run_moves hsplits hsolve opts hopts
    obtain ⟨hglobalsS, hglobalsI⟩ := globals_of_run hglobals hrun
    have hmovable : ∀ f ∈ insecure.partition, f ∈ S.partition →
        Movable env.module env.pdg secure insecure f :=
      fun f hf hS => (hmoved f hS).resolve_left fun hs =>
        Finset.disjoint_left.1 hsplits.ready.disjoint hs hf
    refine ⟨S, I, hrun, (globalsFresh_iff hsecure hglobalsS).2 fun g hg => ⟨?_, ?_⟩,
      (globalsFresh_iff hinsecure hglobalsI).2 fun g hg => ⟨?_, ?_⟩⟩
    · rintro ⟨f, hf, huses⟩
      rcases hmoved f hf with hf | hf
      · exact ⟨f, hf, huses⟩
      · exact (hcond g hg f hf huses).1
    · rintro ⟨f, hf, huses⟩
      exact ⟨f, hkeep f hf, huses⟩
    · rintro ⟨f, hf, huses⟩
      exact ⟨f, ((hmemI f).1 hf).1, huses⟩
    · rintro ⟨f, hf, huses⟩
      by_cases hS : f ∈ S.partition
      · obtain ⟨-, f', hf', hnot, huses'⟩ := hcond g hg f (hmovable f hf hS) huses
        exact ⟨f', (hmemI f').2 ⟨hf', fun hS' => hnot (hmovable f' hf' hS')⟩, huses'⟩
      · exact ⟨f, (hmemI f).2 ⟨hf, hS⟩, huses⟩

end Top

/-- FUNCTIONS_MOVE_TO moves `log`, the only user of `key`; the insecure partition keeps the global. -/
theorem key_stale : ∃ secure insecure S I,
    Partitioner.partition keyModule keyPDG 10 [keyAnnotated] = some (secure, insecure) ∧
    run keyEnvironment secure insecure [.functionsMoveTo] = some (S, I) ∧
    ¬GlobalsFresh keyModule keyPDG S ∧ ¬GlobalsFresh keyModule keyPDG I := by
  obtain ⟨secure, insecure, S, I, hpartition, hrun, h⟩ := exists_key_run [.functionsMoveTo]
    (fun _ _ S I => partitionGlobals keyModule keyPDG S.partition ≠ some S.partitionGlobals ∧
      partitionGlobals keyModule keyPDG I.partition ≠ some I.partitionGlobals) (by decide)
  obtain ⟨hS, hI⟩ := of_decide_eq_true h
  exact ⟨secure, insecure, S, I, hpartition, hrun, hS, hI⟩

theorem key_fresh_iff : ∃ secure insecure,
    Partitioner.partition keyModule keyPDG 10 [keyAnnotated] = some (secure, insecure) ∧
    (KeepsGlobals ℚ keyModule keyPDG secure insecure ↔
      ∀ g ∈ keyModule.globals, ∀ f, Movable keyModule keyPDG secure insecure f →
        keyPDG.UsesGlobal f g → (∃ f' ∈ secure.partition, keyPDG.UsesGlobal f' g) ∧
          ∃ f' ∈ insecure.partition, ¬Movable keyModule keyPDG secure insecure f' ∧
            keyPDG.UsesGlobal f' g) := by
  obtain ⟨secure, insecure, -, -, hpartition, -, -⟩ :=
    exists_key_run [] (fun _ _ _ _ => true) (by decide)
  exact ⟨secure, insecure, hpartition, globals_fresh_iff ℚ keyModule keyPDG key_functionsIn
    (fun _ _ _ => rfl) (fun _ h => nomatch h) 10 [keyAnnotated] secure insecure hpartition⟩

end PartitionOptimizer

end Vazgen
