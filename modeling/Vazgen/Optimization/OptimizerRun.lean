import Vazgen.Optimization.PartitionOptimizer

/-!
# Running and applying the optimisations

What one call of `runOptimizer` can do (`runOptimizer_cases`), the induction over a whole run
(`runOptimizations_induct`), and what applying the collected optimisations does to the functions of
the secure partition (`mem_secure_foldl_apply`) and to the globals (`partitionGlobals_foldl_apply`).
-/

namespace Vazgen

open Worklist

variable {F G V N R : Type}

namespace PartitionOptimizer

section Run

variable [DecidableEq F] [DecidableEq G] [Zero R] [One R] [Add R] [Neg R] [Sub R] [Mul R] [SMul ℤ R]
  [DecidableEq R] [LT R] [DecidableLT R] [LE R] [DecidableLE R] (env : Environment F G V N R)

/-- The object that an optimisation other than KERNIGHAN_LIN pushes, for the partition `side`. -/
inductive Collects (s : State F G) : Optimization → Side → PartitionOptimization F G → Prop
  | functionsMoveTo {side : Side} {moved : Finset F} :
      FunctionsMoveToPartitionOptimization.run env.module env.pdg (s.getPartition side)
        env.loopInfoGetter = some moved →
      Collects s .functionsMoveTo side (.functionsMoveTo side moved)
  | globalsMoveTo {side : Side} :
      Collects s .globalsMoveTo side (.globalsMoveTo side (GlobalsMoveToPartitionOptimization.run
        (s.getPartition side.complement).partitionGlobals (s.getPartition side)))
  | duplicateFunctions {side : Side} {fs : Finset F} :
      Collects s .duplicateFunctions side (.duplicateFunctions fs)
  | staticAnalysis {side : Side} : Collects s .staticAnalysis side .staticAnalysis
  | ilp {side : Side} :
      Collects s .ilp side
        (.ilp (ILPOptimization.run env.solve env.callgraph env.module s.securePartition))

/-- What the Kernighan-Lin optimisation leaves. -/
def RunsKL (s s' : State F G) : Prop :=
  ∃ P Q, KLOptimizer.run env.order env.module env.callgraph s.securePartition s.insecurePartition =
      some (P, Q) ∧
    s' = { securePartition := P, insecurePartition := Q
           optimizations := s.optimizations ++ [.kernighanLin] }

variable {env} {opt : Optimization} {opts : List Optimization} {side : Side} {s s' t : State F G}

/-- An optimisation collects something and changes nothing, or it is KERNIGHAN_LIN. -/
theorem runOptimizer_cases (h : runOptimizer env opt side s = some s') :
    (∃ obj, Collects env s opt side obj ∧ s' = s.push obj) ∨
      (opt = .kernighanLin ∧ RunsKL env s s') := by
  cases opt with
  | functionsMoveTo =>
    obtain ⟨moved, hrun, rfl⟩ := Option.map_eq_some_iff.1 h
    exact .inl ⟨_, .functionsMoveTo hrun, rfl⟩
  | globalsMoveTo =>
    cases h
    exact .inl ⟨_, .globalsMoveTo, rfl⟩
  | duplicateFunctions =>
    simp only [runOptimizer, runDuplicateFunctions] at h
    split at h
    · cases h
      exact .inl ⟨_, .duplicateFunctions, rfl⟩
    · cases h
  | kernighanLin =>
    obtain ⟨⟨P, Q⟩, hrun, rfl⟩ := Option.map_eq_some_iff.1 h
    exact .inr ⟨rfl, P, Q, hrun, rfl⟩
  | staticAnalysis =>
    cases h
    exact .inl ⟨_, .staticAnalysis, rfl⟩
  | ilp =>
    cases h
    exact .inl ⟨_, .ilp, rfl⟩
  | optNum => cases h

/-- An optimisation is run for the secure partition, and some are for the insecure one then. -/
theorem runOptimization_cases (h : runOptimization env s opt = some t) :
    ∃ s', runOptimizer env opt .secure s = some s' ∧
      (((opt = .functionsMoveTo ∨ opt = .globalsMoveTo) ∧
          runOptimizer env opt .insecure s' = some t) ∨
        (opt ≠ .functionsMoveTo ∧ opt ≠ .globalsMoveTo ∧ t = s')) := by
  unfold runOptimization at h
  obtain ⟨s', hs', h⟩ := Option.bind_eq_some_iff.1 h
  refine ⟨s', hs', ?_⟩
  split at h
  · exact .inl ⟨.inl rfl, h⟩
  · exact .inl ⟨.inr rfl, h⟩
  · next hfunctions hglobals =>
    exact .inr ⟨fun h => hfunctions h, fun h => hglobals h, (Option.some.inj h).symm⟩

theorem runOptimization_induct {P : State F G → Prop}
    (hstep : ∀ side s s', P s → runOptimizer env opt side s = some s' → P s') (hs : P s)
    (h : runOptimization env s opt = some t) : P t := by
  obtain ⟨s', hs', ⟨-, ht⟩ | ⟨-, -, rfl⟩⟩ := runOptimization_cases h
  · exact hstep .insecure s' t (hstep .secure s s' hs hs') ht
  · exact hstep .secure s _ hs hs'

/-- **Run rule.**  What every call of `runOptimizer` keeps, the run phase keeps. -/
theorem runOptimizations_induct {P : State F G → Prop}
    (hstep : ∀ opt ∈ opts, ∀ side s s', P s → runOptimizer env opt side s = some s' → P s')
    (hs : P s) (h : opts.foldlM (runOptimization env) s = some t) : P t :=
  foldlM_induct (fun _ opt _ hopt hs hst => runOptimization_induct (hstep opt hopt) hs hst) hs h

theorem run_cases {secure insecure S I : Partition F G}
    (h : run env secure insecure opts = some (S, I)) :
    ∃ s, opts.foldlM (runOptimization env)
        { securePartition := secure, insecurePartition := insecure } = some s ∧
      apply env s = (S, I) :=
  Option.map_eq_some_iff.1 h

omit [DecidableEq F] [DecidableEq G] in
@[simp] theorem getPartition_push (s : State F G) (obj : PartitionOptimization F G) (side : Side) :
    (s.push obj).getPartition side = s.getPartition side := by
  cases side <;> rfl

/-- Nothing that was pushed is lost. -/
theorem mem_optimizations_of_runOptimizer {obj : PartitionOptimization F G}
    (hobj : obj ∈ s.optimizations) (h : runOptimizer env opt side s = some s') :
    obj ∈ s'.optimizations := by
  obtain ⟨obj', -, rfl⟩ | ⟨-, P, Q, -, rfl⟩ := runOptimizer_cases h
  · exact List.mem_append_left _ hobj
  · exact List.mem_append_left _ hobj

end Run

/-! ## The apply phase -/

section Apply

variable [DecidableEq F] {objs : List (PartitionOptimization F G)} {s : State F G} {f : F}

/-- Applying the object moves `f` into the secure partition, whether it is related or not. -/
def PartitionOptimization.MovesIn (f : F) : PartitionOptimization F G → Prop
  | .functionsMoveTo .secure moved => f ∈ moved
  | .ilp moved => f ∈ moved
  | .functionsMoveTo .insecure _ | .globalsMoveTo _ _ | .duplicateFunctions _ | .kernighanLin
  | .staticAnalysis => False

theorem mem_secure_apply (obj : PartitionOptimization F G) :
    f ∈ (applyOptimization s obj).securePartition.partition ↔
      f ∈ s.securePartition.partition ∨ obj.MovesIn f ∨
        (obj = .staticAnalysis ∧ f ∈ s.securePartition.relatedFunctions) := by
  cases obj with
  | functionsMoveTo side moved =>
    cases side with
    | secure =>
      simp [applyOptimization, State.setPartition, State.getPartition,
        FunctionsMoveToPartitionOptimization.apply, PartitionOptimization.MovesIn]
    | insecure => simp [applyOptimization, State.setPartition, PartitionOptimization.MovesIn]
  | globalsMoveTo side moved =>
    cases side <;>
      simp [applyOptimization, State.setPartition, State.getPartition,
        GlobalsMoveToPartitionOptimization.apply, PartitionOptimization.MovesIn]
  | duplicateFunctions fs => simp [applyOptimization, PartitionOptimization.MovesIn]
  | kernighanLin => simp [applyOptimization, PartitionOptimization.MovesIn]
  | staticAnalysis =>
    simp [applyOptimization, StaticAnalysisOptimization.apply, PartitionOptimization.MovesIn,
      Finmap.mem_keys]
  | ilp moved =>
    dsimp only [applyOptimization]
    rw [(partition_apply_ilp moved _ _).1]
    simp [PartitionOptimization.MovesIn]

theorem mem_related_of_apply {obj : PartitionOptimization F G}
    (h : f ∈ (applyOptimization s obj).securePartition.relatedFunctions) :
    f ∈ s.securePartition.relatedFunctions := by
  cases obj with
  | functionsMoveTo side moved => cases side <;> exact h
  | globalsMoveTo side moved => cases side <;> exact h
  | duplicateFunctions fs => exact h
  | kernighanLin => exact h
  | staticAnalysis => exact absurd h Finmap.notMem_empty
  | ilp moved =>
    rw [← Finmap.mem_keys] at h ⊢
    dsimp only [applyOptimization] at h
    rw [keys_apply_ilp] at h
    exact (Finset.mem_sdiff.1 h).1

/-- A related function stays one or moves. -/
theorem mem_of_mem_related (obj : PartitionOptimization F G)
    (h : f ∈ s.securePartition.relatedFunctions) :
    f ∈ (applyOptimization s obj).securePartition.relatedFunctions ∨
      f ∈ (applyOptimization s obj).securePartition.partition := by
  cases obj with
  | functionsMoveTo side moved => cases side <;> exact .inl h
  | globalsMoveTo side moved => cases side <;> exact .inl h
  | duplicateFunctions fs => exact .inl h
  | kernighanLin => exact .inl h
  | staticAnalysis => exact .inr ((mem_secure_apply _).2 (.inr (.inr ⟨rfl, h⟩)))
  | ilp moved =>
    by_cases hf : f ∈ moved
    · exact .inr ((mem_secure_apply _).2 (.inr (.inl hf)))
    · left
      rw [← Finmap.mem_keys] at h ⊢
      dsimp only [applyOptimization]
      rw [keys_apply_ilp, Finset.mem_sdiff, List.mem_toFinset]
      exact ⟨h, hf⟩

/-- **The routes into the secure partition.** -/
theorem mem_secure_foldl_apply :
    f ∈ (objs.foldl applyOptimization s).securePartition.partition ↔
      f ∈ s.securePartition.partition ∨ (∃ obj ∈ objs, obj.MovesIn f) ∨
        (.staticAnalysis ∈ objs ∧ f ∈ s.securePartition.relatedFunctions) := by
  induction objs generalizing s with
  | nil => simp
  | cons obj objs ih =>
    rw [List.foldl_cons, ih, mem_secure_apply, List.exists_mem_cons_iff, List.mem_cons]
    constructor
    · rintro ((hf | hf | ⟨hobj, hf⟩) | hf | ⟨hmem, hf⟩)
      · exact .inl hf
      · exact .inr (.inl (.inl hf))
      · exact .inr (.inr ⟨.inl hobj.symm, hf⟩)
      · exact .inr (.inl (.inr hf))
      · exact .inr (.inr ⟨.inr hmem, mem_related_of_apply hf⟩)
    · rintro (hf | (hf | hf) | ⟨hobj | hmem, hf⟩)
      · exact .inl (.inl hf)
      · exact .inl (.inr (.inl hf))
      · exact .inr (.inl hf)
      · exact .inl (.inr (.inr ⟨hobj.symm, hf⟩))
      · rcases mem_of_mem_related obj hf with hf | hf
        · exact .inr (.inr ⟨hmem, hf⟩)
        · exact .inl ((mem_secure_apply obj).1 hf)

/-- Applying the object moves `f` into the insecure partition. -/
def PartitionOptimization.MovesOut (f : F) : PartitionOptimization F G → Prop
  | .functionsMoveTo .insecure moved => f ∈ moved
  | .functionsMoveTo .secure _ | .globalsMoveTo _ _ | .duplicateFunctions _ | .kernighanLin
  | .staticAnalysis | .ilp _ => False

/-- **The routes into the insecure partition.** -/
theorem mem_insecure_of_foldl_apply
    (h : f ∈ (objs.foldl applyOptimization s).insecurePartition.partition) :
    f ∈ s.insecurePartition.partition ∨ ∃ obj ∈ objs, obj.MovesOut f := by
  induction objs generalizing s with
  | nil => exact .inl h
  | cons obj objs ih =>
    rw [List.exists_mem_cons_iff]
    rcases ih h with hf | hf
    · cases obj with
      | functionsMoveTo side moved =>
        cases side with
        | secure => exact .inl hf
        | insecure => exact (Finset.mem_union.1 hf).imp_right .inl
      | globalsMoveTo side moved => cases side <;> exact .inl hf
      | duplicateFunctions fs => exact .inl hf
      | kernighanLin => exact .inl hf
      | staticAnalysis => exact .inl hf
      | ilp moved =>
        dsimp only [applyOptimization] at hf
        rw [(partition_apply_ilp moved _ _).2] at hf
        exact .inl (Finset.mem_sdiff.1 hf).1
    · exact .inr (.inr hf)

theorem partitionGlobals_apply_ilp (moved : List F) (secure insecure : Partition F G) :
    (ILPOptimization.apply moved secure insecure).1.partitionGlobals = secure.partitionGlobals ∧
      (ILPOptimization.apply moved secure insecure).2.partitionGlobals =
        insecure.partitionGlobals := by
  unfold ILPOptimization.apply
  induction moved generalizing secure insecure with
  | nil => exact ⟨rfl, rfl⟩
  | cons f moved ih =>
    rw [List.foldl_cons]
    exact ih _ _

/-- The globals of a partition are the ones that GLOBALS_MOVE_TO has collected for it, or those it
had. -/
theorem partitionGlobals_foldl_apply (side : Side) {moved : Finset G}
    (hall : ∀ moved', .globalsMoveTo side moved' ∈ objs → moved' = moved)
    (h : (s.getPartition side).partitionGlobals = moved ∨ .globalsMoveTo side moved ∈ objs) :
    ((objs.foldl applyOptimization s).getPartition side).partitionGlobals = moved := by
  induction objs generalizing s with
  | nil => simpa using h
  | cons obj objs ih =>
    rw [List.foldl_cons]
    refine ih (fun moved' hmem => hall moved' (List.mem_cons_of_mem obj hmem)) ?_
    cases obj with
    | globalsMoveTo side' moved' =>
      cases side <;> cases side' <;> first
        | exact .inl (hall moved' List.mem_cons_self)
        | simpa [applyOptimization, State.setPartition, State.getPartition] using h
    | functionsMoveTo side' moved' =>
      cases side <;> cases side' <;>
        simpa [applyOptimization, State.setPartition, State.getPartition,
          FunctionsMoveToPartitionOptimization.apply, Partition.addFunctions] using h
    | duplicateFunctions fs => simpa [applyOptimization] using h
    | kernighanLin => simpa [applyOptimization] using h
    | staticAnalysis =>
      cases side <;>
        simpa [applyOptimization, State.getPartition, StaticAnalysisOptimization.apply,
          Partition.addFunctions, Partition.clearRelatedFunctions] using h
    | ilp fs =>
      obtain ⟨hsecure, hinsecure⟩ :=
        partitionGlobals_apply_ilp fs s.securePartition s.insecurePartition
      cases side with
      | secure => simpa [applyOptimization, State.getPartition, hsecure] using h
      | insecure => simpa [applyOptimization, State.getPartition, hinsecure] using h

/-- The last loop of `apply` and the interfaces leave the globals alone. -/
theorem partitionGlobals_apply (env : Environment F G V N R) (s : State F G) :
    (apply env s).1.partitionGlobals =
        (s.optimizations.foldl applyOptimization s).securePartition.partitionGlobals ∧
      (apply env s).2.partitionGlobals =
        (s.optimizations.foldl applyOptimization s).insecurePartition.partitionGlobals := by
  have hfold : ∀ (fs : List F) (s : State F G),
      let t := fs.foldl (fun s f =>
        { s with
          insecurePartition := s.insecurePartition.removeFromPartition f
          securePartition := s.securePartition.removeRelatedFunction f }) s
      t.securePartition.partitionGlobals = s.securePartition.partitionGlobals ∧
        t.insecurePartition.partitionGlobals = s.insecurePartition.partitionGlobals := by
    intro fs
    induction fs with
    | nil => exact fun s => ⟨rfl, rfl⟩
    | cons f fs ih => exact fun s => ih _
  exact hfold _ _

end Apply

end PartitionOptimizer

end Vazgen
