import Vazgen.Lib.Batch
import Vazgen.Optimization.OptimizedGlobals

/-!
# What the order of the optimisations decides

Only KERNIGHAN_LIN changes the partitions in `run`.  All other optimisations collect what they move
from the partitions that they find, a batch that is carried out at the end.  So a run without
KERNIGHAN_LIN moves what each of its optimisations moves in the partitions as they were
(`run_eq_batch`), and between two KERNIGHAN_LINs neither order nor repetition matters
if no DUPLICATE_FUNCTIONS follows (`run_congr_between`).
-/

namespace Vazgen

open Worklist Batch

variable {F G V N R : Type}

namespace PartitionOptimizer

/-- Two states that agree in their partitions, and have the same objects in any order. -/
structure Alike (s t : State F G) : Prop where
  secure : s.securePartition = t.securePartition
  insecure : s.insecurePartition = t.insecurePartition
  optimizations : Same s.optimizations t.optimizations

theorem Alike.exists_iff {s t : State F G} (h : Alike s t) (p : PartitionOptimization F G → Prop) :
    (∃ obj ∈ s.optimizations, p obj) ↔ ∃ obj ∈ t.optimizations, p obj :=
  exists_congr fun obj => and_congr_left fun _ => h.optimizations obj

/-! ## What `apply` returns -/

section Apply

variable [DecidableEq F] {objs : List (PartitionOptimization F G)} {s t : State F G} {f : F}

/-- What is insecure, or moved out, and not secure in the end stays insecure. -/
theorem mem_insecure_foldl_apply
    (hf : f ∉ (objs.foldl applyOptimization s).securePartition.partition) :
    f ∈ (objs.foldl applyOptimization s).insecurePartition.partition ↔
      f ∈ s.insecurePartition.partition ∨ ∃ obj ∈ objs, obj.MovesOut f := by
  refine ⟨mem_insecure_of_foldl_apply, fun h => ?_⟩
  induction objs generalizing s with
  | nil => simpa using h
  | cons obj objs ih =>
    rw [List.foldl_cons] at hf ⊢
    refine ih hf ?_
    rw [List.exists_mem_cons_iff] at h
    have hkeep : f ∈ s.insecurePartition.partition ∨ obj.MovesOut f →
        f ∈ (applyOptimization s obj).insecurePartition.partition := by
      intro h
      cases obj with
      | functionsMoveTo side moved =>
        cases side with
        | secure => exact h.resolve_right id
        | insecure => exact Finset.mem_union.2 h
      | globalsMoveTo side moved => cases side <;> exact h.resolve_right id
      | duplicateFunctions fs => exact h.resolve_right id
      | kernighanLin => exact h.resolve_right id
      | staticAnalysis => exact h.resolve_right id
      | ilp moved =>
        dsimp only [applyOptimization]
        rw [(partition_apply_ilp moved _ _).2, Finset.mem_sdiff, List.mem_toFinset]
        -- what ILP moves is secure in the end
        refine ⟨h.resolve_right id, fun hmoved => hf ?_⟩
        rw [mem_secure_foldl_apply]
        exact .inl ((mem_secure_apply _).2 (.inr (.inl hmoved)))
    rcases h with h | h | h
    · exact .inl (hkeep (.inl h))
    · exact .inl (hkeep (.inr h))
    · exact .inr h

theorem lookup_related_apply_ilp {moved : List F} (hf : f ∉ moved) (secure insecure : Partition F G) :
    (ILPOptimization.apply moved secure insecure).1.relatedFunctions.lookup f =
      secure.relatedFunctions.lookup f := by
  unfold ILPOptimization.apply
  induction moved generalizing secure insecure with
  | nil => rfl
  | cons g moved ih =>
    rw [List.mem_cons, not_or] at hf
    rw [List.foldl_cons, ih hf.2]
    exact Finmap.lookup_erase_ne hf.1

theorem insecureRelated_apply (obj : PartitionOptimization F G) :
    (applyOptimization s obj).insecurePartition.relatedFunctions =
      s.insecurePartition.relatedFunctions := by
  cases obj with
  | functionsMoveTo side moved => cases side <;> rfl
  | globalsMoveTo side moved => cases side <;> rfl
  | duplicateFunctions fs => rfl
  | kernighanLin => rfl
  | staticAnalysis => rfl
  | ilp moved =>
    unfold applyOptimization ILPOptimization.apply
    dsimp only
    generalize s.securePartition = P, s.insecurePartition = Q
    induction moved generalizing P Q with
    | nil => rfl
    | cons g moved ih => rw [List.foldl_cons, ih, Partition.removeFromPartition]

theorem insecureRelated_foldl_apply :
    (objs.foldl applyOptimization s).insecurePartition.relatedFunctions =
      s.insecurePartition.relatedFunctions := by
  induction objs generalizing s with
  | nil => rfl
  | cons obj objs ih => rw [List.foldl_cons, ih, insecureRelated_apply]

/-- The level of a function that is not secure in the end is kept. -/
theorem lookup_related_foldl_apply
    (hf : f ∉ (objs.foldl applyOptimization s).securePartition.partition) :
    (objs.foldl applyOptimization s).securePartition.relatedFunctions.lookup f =
      s.securePartition.relatedFunctions.lookup f := by
  induction objs generalizing s with
  | nil => rfl
  | cons obj objs ih =>
    rw [List.foldl_cons] at hf ⊢
    rw [ih hf]
    have hnot : f ∉ (applyOptimization s obj).securePartition.partition := fun h =>
      hf (mem_secure_foldl_apply.2 (.inl h))
    rw [mem_secure_apply, not_or, not_or] at hnot
    cases obj with
    | functionsMoveTo side moved => cases side <;> rfl
    | globalsMoveTo side moved => cases side <;> rfl
    | duplicateFunctions fs => rfl
    | kernighanLin => rfl
    | staticAnalysis =>
      have hrelated : f ∉ s.securePartition.relatedFunctions := fun h => hnot.2.2 ⟨rfl, h⟩
      rw [Finmap.lookup_eq_none.2 hrelated]
      exact Finmap.lookup_empty f
    | ilp moved => exact lookup_related_apply_ilp hnot.2.1 _ _

/-- What `apply` returns for the state `s`, but for the globals. -/
structure Optimized (env : Environment F G V N R) (s : State F G) (S I : Partition F G) : Prop where
  secure : ∀ f, f ∈ S.partition ↔ f ∈ s.securePartition.partition ∨
    (∃ obj ∈ s.optimizations, obj.MovesIn f) ∨
      (.staticAnalysis ∈ s.optimizations ∧ f ∈ s.securePartition.relatedFunctions)
  insecure : ∀ f, f ∈ I.partition ↔ (f ∈ s.insecurePartition.partition ∨
    ∃ obj ∈ s.optimizations, obj.MovesOut f) ∧ f ∉ S.partition
  secureRelated : ∀ f, S.relatedFunctions.lookup f =
    if f ∈ S.partition then none else s.securePartition.relatedFunctions.lookup f
  insecureRelated : I.relatedFunctions = s.insecurePartition.relatedFunctions
  secureInterfaced : Interfaced env.module env.pdg S
  insecureInterfaced : Interfaced env.module env.pdg I

theorem lookup_foldl_removeRelatedFunction (fs : List F) (P : Partition F G) (f : F) :
    (fs.foldl (fun P f => P.removeRelatedFunction f) P).relatedFunctions.lookup f =
      if f ∈ fs then none else P.relatedFunctions.lookup f := by
  induction fs generalizing P with
  | nil => simp
  | cons g fs ih =>
    rw [List.foldl_cons, ih, Partition.removeRelatedFunction]
    by_cases hg : f = g
    · subst hg
      simp
    · simp [hg, Finmap.lookup_erase_ne hg]

/-- The loop over the secure functions, one partition at a time. -/
theorem purge_eq_foldl (env : Environment F G V N R) (s : State F G) :
    purge env s =
      { s with
        insecurePartition := (env.order.list s.securePartition.partition).foldl
          (fun P f => P.removeFromPartition f) s.insecurePartition
        securePartition := (env.order.list s.securePartition.partition).foldl
          (fun P f => P.removeRelatedFunction f) s.securePartition } := by
  have hfold : ∀ (fs : List F) (s : State F G), fs.foldl (fun s f =>
      { s with
        insecurePartition := s.insecurePartition.removeFromPartition f
        securePartition := s.securePartition.removeRelatedFunction f }) s =
      { s with
        insecurePartition := fs.foldl (fun P f => P.removeFromPartition f) s.insecurePartition
        securePartition := fs.foldl (fun P f => P.removeRelatedFunction f) s.securePartition } := by
    intro fs
    induction fs with
    | nil => intro s; rfl
    | cons f fs ih => intro s; rw [List.foldl_cons, ih]; rfl
  exact hfold _ s

theorem related_purge (env : Environment F G V N R) (s : State F G) :
    (∀ f, (purge env s).securePartition.relatedFunctions.lookup f =
        if f ∈ s.securePartition.partition then none
        else s.securePartition.relatedFunctions.lookup f) ∧
      (purge env s).insecurePartition.relatedFunctions = s.insecurePartition.relatedFunctions := by
  rw [purge_eq_foldl]
  constructor
  · intro f
    dsimp only
    rw [lookup_foldl_removeRelatedFunction]
    simp only [env.order.mem]
  · dsimp only
    rw [Partition.foldl_removeFromPartition]

/-- **What `apply` returns.** -/
theorem optimized_apply (env : Environment F G V N R) (s : State F G) :
    Optimized env s (apply env s).1 (apply env s).2 := by
  have hpurged := purged_apply env s
  obtain ⟨hsecureRelated, hinsecureRelated⟩ :=
    related_purge env (s.optimizations.foldl applyOptimization s)
  refine ⟨fun f => ?_, fun f => ?_, fun f => ?_, ?_, hpurged.secure_interfaced,
    hpurged.insecure_interfaced⟩
  · rw [hpurged.secure_eq, mem_secure_foldl_apply]
  · rw [hpurged.insecure_eq, hpurged.secure_eq, Finset.mem_sdiff]
    exact and_congr_left fun hf => mem_insecure_foldl_apply hf
  · rw [hpurged.secure_eq]
    refine (hsecureRelated f).trans ?_
    split
    · rfl
    · next hf => exact lookup_related_foldl_apply hf
  · exact hinsecureRelated.trans insecureRelated_foldl_apply

theorem Partition.ext_of_interfaced {M : Module F G V} {pdg : PDG F G V N} {P Q : Partition F G}
    (hP : Interfaced M pdg P) (hQ : Interfaced M pdg Q) (hpartition : P.partition = Q.partition)
    (hrelated : P.relatedFunctions = Q.relatedFunctions)
    (hglobals : P.partitionGlobals = Q.partitionGlobals) : P = Q := by
  have hin : P.inInterface = Q.inInterface := by
    rw [hP.inInterface, hQ.inInterface, hpartition]
  have hout : P.outInterface = Q.outInterface := by
    rw [hP.outInterface, hQ.outInterface, hpartition]
  cases P
  cases Q
  simp_all

/-- What is returned for two states that are alike differs in the globals at most. -/
theorem Optimized.unique {env env' : Environment F G V N R} {S I S' I' : Partition F G}
    (hmodule : env.module = env'.module) (hpdg : env.pdg = env'.pdg) (h : Optimized env s S I)
    (h' : Optimized env' t S' I') (halike : Alike s t)
    (hS : S.partitionGlobals = S'.partitionGlobals)
    (hI : I.partitionGlobals = I'.partitionGlobals) : S = S' ∧ I = I' := by
  have hsecure : S.partition = S'.partition := by
    ext f
    rw [h.secure, h'.secure, halike.secure, halike.exists_iff, halike.optimizations]
  have hinsecure : I.partition = I'.partition := by
    ext f
    rw [h.insecure, h'.insecure, halike.insecure, halike.exists_iff, hsecure]
  constructor
  · refine Partition.ext_of_interfaced h.secureInterfaced ?_ hsecure ?_ hS
    · rw [hmodule, hpdg]
      exact h'.secureInterfaced
    · refine Finmap.ext_lookup fun f => ?_
      rw [h.secureRelated, h'.secureRelated, halike.secure, hsecure]
  · refine Partition.ext_of_interfaced h.insecureInterfaced ?_ hinsecure ?_ hI
    · rw [hmodule, hpdg]
      exact h'.insecureInterfaced
    · rw [h.insecureRelated, h'.insecureRelated, halike.insecure]

/-- The globals that `apply` returns, for a state that a run has reached. -/
theorem partitionGlobals_apply_congr [DecidableEq G] (env : Environment F G V N R) {s₀ : State F G}
    (hs : GlobalsCollected s₀ s)
    (ht : GlobalsCollected s₀ t) (h : Alike s t) :
    (apply env s).1.partitionGlobals = (apply env t).1.partitionGlobals ∧
      (apply env s).2.partitionGlobals = (apply env t).2.partitionGlobals := by
  have hside : ∀ side,
      ((s.optimizations.foldl applyOptimization s).getPartition side).partitionGlobals =
        ((t.optimizations.foldl applyOptimization t).getPartition side).partitionGlobals := by
    intro side
    by_cases hmoved : ∃ moved, .globalsMoveTo side moved ∈ s.optimizations
    · obtain ⟨moved, hmoved⟩ := hmoved
      have hmoved' := (h.optimizations _).1 hmoved
      rw [partitionGlobals_foldl_apply side (fun m hm => (hs.moved side m hm).trans
          (hs.moved side moved hmoved).symm) (.inr hmoved),
        partitionGlobals_foldl_apply side (fun m hm => (ht.moved side m hm).trans
          (ht.moved side moved hmoved').symm) (.inr hmoved')]
    · have hnone : ∀ moved, .globalsMoveTo side moved ∉ s.optimizations := not_exists.1 hmoved
      rw [partitionGlobals_foldl_apply side (fun m hm => absurd hm (hnone m)) (.inl rfl),
        partitionGlobals_foldl_apply side
          (fun m hm => absurd ((h.optimizations _).2 hm) (hnone m)) (.inl rfl),
        hs.globals, ht.globals]
  obtain ⟨hS, hI⟩ := partitionGlobals_apply env s
  obtain ⟨hS', hI'⟩ := partitionGlobals_apply env t
  exact ⟨hS.trans ((hside .secure).trans hS'.symm), hI.trans ((hside .insecure).trans hI'.symm)⟩

end Apply

/-! ## The batch of a run -/

/-- The requests of a batch: no KERNIGHAN_LIN, and no DUPLICATE_FUNCTIONS, which looks at what has
been pushed. -/
def InBatch (opt : Optimization) : Prop := opt ≠ .kernighanLin ∧ opt ≠ .duplicateFunctions

instance : DecidablePred InBatch := fun _ => inferInstanceAs (Decidable (_ ∧ _))

def State.pushAll (s : State F G) (objs : List (PartitionOptimization F G)) : State F G :=
  { s with optimizations := s.optimizations ++ objs }

section Collect

variable [DecidableEq F] [DecidableEq G] [Zero R] [One R] [Add R] [Neg R] [Sub R] [Mul R]
  [DecidableEq R] (env : Environment F G V N R)

/-- The objects that an optimisation of a batch leaves. -/
def collect (s : State F G) : Optimization → Option (List (PartitionOptimization F G))
  | .functionsMoveTo =>
    (FunctionsMoveToPartitionOptimization.run env.module env.pdg s.securePartition
      env.loopInfoGetter).bind fun secureFs =>
    (FunctionsMoveToPartitionOptimization.run env.module env.pdg s.insecurePartition
      env.loopInfoGetter).map fun insecureFs =>
    [.functionsMoveTo .secure secureFs, .functionsMoveTo .insecure insecureFs]
  | .globalsMoveTo =>
    some [.globalsMoveTo .secure (ownGlobals s .secure),
      .globalsMoveTo .insecure (ownGlobals s .insecure)]
  | .staticAnalysis => some [.staticAnalysis]
  | .ilp =>
    some [.ilp (ILPOptimization.run env.solve env.callgraph env.module s.securePartition)]
  | .duplicateFunctions | .kernighanLin | .optNum => none

theorem collect_congr {s t : State F G} (hsecure : s.securePartition = t.securePartition)
    (hinsecure : s.insecurePartition = t.insecurePartition) (opt : Optimization) :
    collect env s opt = collect env t opt := by
  have hglobals : ∀ side, ownGlobals s side = ownGlobals t side := by
    intro side
    cases side <;> simp [ownGlobals, State.getPartition, Side.complement, hsecure, hinsecure]
  unfold collect
  rw [hsecure, hinsecure, hglobals, hglobals]

variable [SMul ℤ R] [LT R] [DecidableLT R] [LE R] [DecidableLE R]

theorem runOptimization_eq_collect {opt : Optimization} (hopt : InBatch opt) (s : State F G) :
    runOptimization env s opt = (collect env s opt).map s.pushAll := by
  cases opt with
  | functionsMoveTo =>
    simp only [runOptimization, runOptimizer, collect, State.getPartition]
    cases FunctionsMoveToPartitionOptimization.run env.module env.pdg s.securePartition
        env.loopInfoGetter with
    | none => rfl
    | some secureFs =>
      simp only [Option.map_some, Option.bind_some, Option.map_map]
      refine congrArg (Option.map · _) (funext fun insecureFs => ?_)
      simp [State.push, State.pushAll]
  | globalsMoveTo =>
    simp [runOptimization, runOptimizer, collect, State.push, State.pushAll, ownGlobals,
      State.getPartition, Side.complement]
  | duplicateFunctions => exact absurd rfl hopt.2
  | kernighanLin => exact absurd rfl hopt.1
  | staticAnalysis => rfl
  | ilp => rfl
  | optNum => rfl

/-- A run without KERNIGHAN_LIN collects a batch. -/
theorem runOptimizations_eq_collectAll {opts : List Optimization}
    (hopts : ∀ opt ∈ opts, InBatch opt) (s : State F G) :
    opts.foldlM (runOptimization env) s = (collectAll (collect env s) opts).map s.pushAll :=
  foldlM_eq_collectAll State.pushAll (fun s => by simp [State.pushAll])
    (fun s jobs jobs' => by simp [State.pushAll])
    (fun opt hopt s => runOptimization_eq_collect env (hopts opt hopt) s)
    (fun opt _ s jobs => collect_congr env rfl rfl opt) s

/-! ## States that are alike stay alike -/

variable {env} {s t : State F G}

/-- One optimisation, whether it is of a batch or KERNIGHAN_LIN. -/
theorem Alike.runOptimization (h : Alike s t) {opt : Optimization}
    (hopt : opt ≠ .duplicateFunctions) :
    Option.Rel Alike (PartitionOptimizer.runOptimization env s opt)
      (PartitionOptimizer.runOptimization env t opt) := by
  by_cases hkl : opt = .kernighanLin
  · subst hkl
    simp only [PartitionOptimizer.runOptimization, runOptimizer, h.secure, h.insecure]
    refine rel_bind (r := Alike) ?_ fun _ _ hst => .some hst
    exact rel_map_same (fun parts => ⟨rfl, rfl, h.optimizations.append_right _⟩) _
  · rw [runOptimization_eq_collect env ⟨hkl, hopt⟩, runOptimization_eq_collect env ⟨hkl, hopt⟩,
      collect_congr env h.secure h.insecure]
    exact rel_map_same
      (fun objs => ⟨h.secure, h.insecure, h.optimizations.append_right objs⟩) _

theorem Alike.runOptimizations (h : Alike s t) {opts : List Optimization}
    (hopts : .duplicateFunctions ∉ opts) :
    Option.Rel Alike (opts.foldlM (PartitionOptimizer.runOptimization env) s)
      (opts.foldlM (PartitionOptimizer.runOptimization env) t) := by
  induction opts generalizing s t with
  | nil => exact .some h
  | cons opt opts ih =>
    rw [List.mem_cons, not_or] at hopts
    rw [List.foldlM_cons, List.foldlM_cons]
    exact rel_bind (h.runOptimization fun heq => hopts.1 heq.symm) fun _ _ hst => ih hst hopts.2

/-- A batch in two orders. -/
theorem rel_runOptimizations {opts opts' : List Optimization} (hopts : ∀ opt ∈ opts, InBatch opt)
    (hsame : ∀ opt, opt ∈ opts ↔ opt ∈ opts') :
    Option.Rel Alike (opts.foldlM (PartitionOptimizer.runOptimization env) s)
      (opts'.foldlM (PartitionOptimizer.runOptimization env) s) := by
  rw [runOptimizations_eq_collectAll env hopts,
    runOptimizations_eq_collectAll env fun opt hopt => hopts opt ((hsame opt).2 hopt)]
  exact rel_map (rel_collectAll hsame) fun _ _ hobjs => ⟨rfl, rfl, hobjs.append_left _⟩

/-- **Between two KERNIGHAN_LINs neither order nor repetition matters.**  Two lists that differ only
in a part without KERNIGHAN_LIN and DUPLICATE_FUNCTIONS, and there only in the order and the number of
the optimisations, lead to the same partitions, or both to none.  Behind that part there must be no
DUPLICATE_FUNCTIONS, which asks for the first two objects. -/
theorem run_congr_between (env : Environment F G V N R) (secure insecure : Partition F G)
    (before between between' after : List Optimization) (hbetween : ∀ opt ∈ between, InBatch opt)
    (hsame : ∀ opt, opt ∈ between ↔ opt ∈ between') (hafter : .duplicateFunctions ∉ after) :
    run env secure insecure (before ++ between ++ after) =
      run env secure insecure (before ++ between' ++ after) := by
  let start : State F G := { securePartition := secure, insecurePartition := insecure }
  have hrel : Option.Rel Alike
      ((before ++ between ++ after).foldlM (PartitionOptimizer.runOptimization env) start)
      ((before ++ between' ++ after).foldlM (PartitionOptimizer.runOptimization env) start) := by
    simp only [List.foldlM_append]
    refine rel_bind (r := Alike) ?_ fun _ _ hst => hst.runOptimizations hafter
    exact rel_bind_same (fun s => rel_runOptimizations hbetween hsame) _
  refine map_eq_map_of_rel hrel fun s t hs ht halike => ?_
  obtain ⟨hS, hI⟩ := partitionGlobals_apply_congr env (globalsCollected_of_run hs rfl)
    (globalsCollected_of_run ht rfl) halike
  obtain ⟨hsecure, hinsecure⟩ := (optimized_apply env s).unique rfl rfl (optimized_apply env t)
    halike hS hI
  exact Prod.ext hsecure hinsecure

end Collect

end PartitionOptimizer

end Vazgen
