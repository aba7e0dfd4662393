import Vazgen.Analysis.Distances
import Vazgen.Analysis.Termination

/-!
# Annotating more arguments

Which nodes the walks of an argument visit depends on the graph alone, so the related functions of a
run whose assertions hold are the functions that the walks of the annotated arguments record
(`mem_relatedFunctions_iff`).  More annotated arguments record more functions, unless the guard
`canPartition` gives all arguments up because of one that is no pointer (`related_subset_iff`).
-/

namespace Vazgen

open Worklist Relation

variable {F G V N : Type} [DecidableEq F] [DecidableEq V]

/-! ## The functions that a walk records -/

section Walk

variable {M : Module F G V} {pdg : PDG F G V N} {annotated : F} {loop : TraverseLoop F G V N}
  {queued collects : N → List N}

/-- A run of a walk to its end passes through every state of its control. -/
theorem exists_of_reaches (hq : loop.Queues queued) {s t : TraverseState F G V N} {fuel : Nat}
    (hrun : whileSome (traverseStep M pdg loop annotated) fuel s = some t) {q : Queue N V}
    (h : Reaches (loop.marking pdg queued).step s.toQueue q) :
    ∃ u k, u.toQueue = q ∧ whileSome (traverseStep M pdg loop annotated) k u = some t := by
  induction h with
  | refl => exact ⟨s, fuel, rfl, hrun⟩
  | tail _ hst ih =>
    obtain ⟨u, k, rfl, hk⟩ := ih
    have hmap := traverseStep_toQueue M pdg loop annotated hq u
    rw [hst] at hmap
    obtain ⟨u', hu, hq'⟩ := Option.map_eq_some_iff.1 hmap
    cases k with
    | zero => cases hk
    | succ k =>
      rw [whileSome_succ_of_some hu] at hk
      exact ⟨u', k, hq', hk⟩

/-- An assertion that has failed stays failed, and related functions stay related. -/
theorem findings_of_run (hq : loop.Queues queued)
    (he : loop.Effects M pdg queued collects annotated) {s t : TraverseState F G V N} {fuel : Nat}
    (hrun : whileSome (traverseStep M pdg loop annotated) fuel s = some t)
    (ht : t.assertFailed = false) :
    s.assertFailed = false ∧
      ∀ f ∈ s.partition.relatedFunctions, f ∈ t.partition.relatedFunctions := by
  refine ⟨?_, (keeps_of_run hq hrun).2.2⟩
  refine (whileSome_induct (P := fun u => u.assertFailed = false → s.assertFailed = false)
    (fun u u' hu _ hst hu' => hu ?_) fuel s t id hrun).1 ht
  obtain ⟨n, heffects, -⟩ := traverseStep_effects he hst
  exact assertFailed_of_effects heffects hu'

/-- **The functions related by a walk** whose assertions hold: those there were, and those that the
visits of its nodes record. -/
theorem mem_related_of_run (hq : loop.Queues queued)
    (he : loop.Effects M pdg queued collects annotated) {s t : TraverseState F G V N} {fuel : Nat}
    (hrun : whileSome (traverseStep M pdg loop annotated) fuel s = some t)
    (ht : t.assertFailed = false) (f : F) :
    f ∈ t.partition.relatedFunctions ↔ f ∈ s.partition.relatedFunctions ∨
      ∃ n, (loop.marking pdg queued).Visits s.toQueue n ∧
        Records M pdg collects annotated n f := by
  constructor
  · have hstart : Reaches (loop.marking pdg queued).step s.toQueue s.toQueue := .refl
    refine (whileSome_induct (P := fun u => Reaches (loop.marking pdg queued).step s.toQueue
      u.toQueue ∧ (f ∈ u.partition.relatedFunctions → f ∈ s.partition.relatedFunctions ∨
        ∃ n, (loop.marking pdg queued).Visits s.toQueue n ∧ Records M pdg collects annotated n f))
      (fun u u' hu _ hst => ?_) fuel s t ⟨hstart, .inl⟩ hrun).1.2
    obtain ⟨hreach, hu⟩ := hu
    have hmap := traverseStep_toQueue M pdg loop annotated hq u
    rw [hst] at hmap
    refine ⟨hreach.tail hmap.symm, fun hf => ?_⟩
    obtain ⟨n, heffects, heq | hv⟩ := traverseStep_effects he hst
    · exact hu ((congrArg (f ∈ ·.relatedFunctions) heq).mp hf)
    · rcases records_of_effects heffects hf with hf | hrec
      · exact hu hf
      · exact .inr ⟨n, ⟨u.toQueue, hreach, hv⟩, hrec⟩
  · rintro (hf | ⟨n, ⟨q, hreach, hv⟩, hrec⟩)
    · exact (keeps_of_run hq hrun).2.2 f hf
    · obtain ⟨u, k, rfl, hk⟩ := exists_of_reaches hq hrun hreach
      cases k with
      | zero => cases hk
      | succ k =>
        cases hst : traverseStep M pdg loop annotated u with
        | none =>
          have hmap := traverseStep_toQueue M pdg loop annotated hq u
          rw [hst] at hmap
          have hpend := (loop.marking pdg queued).step_eq_none hmap.symm
          rw [Marking.visiting, hpend] at hv
          cases hv
        | some u' =>
          rw [whileSome_succ_of_some hst] at hk
          obtain ⟨hu', hrel⟩ := findings_of_run hq he hk ht
          refine hrel f ?_
          obtain ⟨m, rest, -, ⟨hno, -⟩ | ⟨hm, pv, rfl⟩⟩ :=
            traverseStep_visiting queued hst
          · rw [hno] at hv
            cases hv
          · rw [hm] at hv
            cases hv
            exact visitNode_recorded he hrec hu'

end Walk

/-! ## The functions that the walks of an argument record -/

section Arguments

variable (M : Module F G V) (pdg : PDG F G V N) (annotated : F)

/-- The control of the loop of `traverseForward`. -/
abbrev forwardMarking : Marking N V :=
  (forwardLoop M pdg annotated).marking pdg (forwardQueued pdg)

/-- The control of the loop of `traverseBackward`. -/
abbrev backwardMarking : Marking N V :=
  (backwardLoop (F := F) (G := G) pdg).marking pdg (backwardQueued pdg)

omit [DecidableEq F] [DecidableEq V] in
/-- What the visit of a node by `traverseForward` adds to the list of the backward walk. -/
def storedNodes (n : N) : List N :=
  if pdg.functionOf n = none then (storeOperandNode M pdg annotated n).toList else []

/-- Some visit of the walks from the formal argument node `a` records `f`. -/
def RecordsFrom (a : N) (f : F) : Prop :=
  (∃ n, (forwardMarking M pdg annotated).Visits { pending := [a], marked := ∅ } n ∧
    Records M pdg (forwardCollects pdg) annotated n f) ∨
  ∃ fuel x, whileSome ((forwardMarking M pdg annotated).collectStep (storedNodes M pdg annotated))
      fuel ({ pending := [a], marked := ∅ }, []) = some x ∧
    ∃ n, (backwardMarking pdg).Visits { pending := x.2, marked := ∅ } n ∧
      Records M pdg backwardCollects annotated n f

variable {M pdg annotated}

/-- The list for the backward walk is filled by the control of the forward walk. -/
theorem traverseStep_collect (s : TraverseState F G V N) :
    (traverseStep M pdg (forwardLoop M pdg annotated) annotated s).map
        (fun s => (s.toQueue, s.result)) =
      (forwardMarking M pdg annotated).collectStep (storedNodes M pdg annotated)
        (s.toQueue, s.result) := by
  have hmap := traverseStep_toQueue M pdg (forwardLoop M pdg annotated) annotated
    (queues_forwardLoop M pdg annotated) s
  unfold Marking.collectStep
  rw [← hmap]
  cases hst : traverseStep M pdg (forwardLoop M pdg annotated) annotated s with
  | none => rfl
  | some s' =>
    obtain ⟨n, rest, -, ⟨hv, rfl⟩ | ⟨hv, pv, rfl⟩⟩ :=
      traverseStep_visiting (forwardQueued pdg) hst
    · simp only [hv, Option.map_some, Option.toList_none, List.flatMap_nil, List.nil_append]
    · simp only [hv, Option.map_some, Option.toList_some, List.flatMap_singleton]
      rw [result_visitNode]
      rfl

/-- The functions related by the walks of one argument. -/
theorem mem_related_traverseForArgument {fuel arg : Nat} {s t : TraverseState F G V N}
    (h : traverseForArgument M pdg fuel annotated arg s = some t) (ht : t.assertFailed = false)
    (f : F) :
    s.assertFailed = false ∧ (f ∈ t.partition.relatedFunctions ↔
      f ∈ s.partition.relatedFunctions ∨ ∃ a, pdg.getFormalArgNode annotated arg = some a ∧
        RecordsFrom M pdg annotated a f) := by
  unfold traverseForArgument at h
  cases ha : pdg.getFormalArgNode annotated arg with
  | none =>
    rw [ha] at h
    cases h
    refine ⟨ht, (or_iff_left ?_).symm⟩
    rintro ⟨a, ha, -⟩
    cases ha
  | some a =>
    rw [ha] at h
    obtain ⟨u, hu, h⟩ := Option.bind_eq_some_iff.1 h
    have hback := findings_of_run (queues_backwardLoop pdg) (effects_backwardLoop M pdg annotated)
      h ht
    have hfwd := findings_of_run (queues_forwardLoop M pdg annotated)
      (effects_forwardLoop M pdg annotated) hu hback.1
    have hlist : ∃ fuel x, whileSome ((forwardMarking M pdg annotated).collectStep
        (storedNodes M pdg annotated)) fuel ({ pending := [a], marked := ∅ }, []) = some x ∧
        x.2 = u.result := by
      have hrun := congrArg (Option.map fun s => (s.toQueue, s.result)) hu
      unfold traverseForward at hrun
      rw [whileSome_map traverseStep_collect] at hrun
      exact ⟨fuel, (u.toQueue, u.result), hrun, rfl⟩
    obtain ⟨k, x, hx, hxu⟩ := hlist
    refine ⟨hfwd.1, ?_⟩
    rw [mem_related_of_run (queues_backwardLoop pdg) (effects_backwardLoop M pdg annotated) h ht,
      mem_related_of_run (queues_forwardLoop M pdg annotated)
        (effects_forwardLoop M pdg annotated) hu hback.1, or_assoc]
    refine or_congr Iff.rfl ⟨?_, ?_⟩
    · rintro (hrec | hrec)
      · exact ⟨a, rfl, .inl hrec⟩
      · refine ⟨a, rfl, .inr ⟨k, x, hx, ?_⟩⟩
        rw [hxu]
        exact hrec
    · rintro ⟨a', ha', hrec⟩
      cases ha'
      rcases hrec with hrec | ⟨k', x', hx', hrec⟩
      · exact .inl hrec
      · refine .inr ?_
        rw [whileSome_unique hx' hx, hxu] at hrec
        exact hrec

end Arguments

namespace PartitionForArguments

variable (M : Module F G V) (pdg : PDG F G V N) (annot : Annotation F)

/-- The walks of the pointer argument `arg` record `f`. -/
def ArgumentRecords (arg : Nat) (f : F) : Prop :=
  isPointerArg M annot arg = true ∧ ∃ a, pdg.getFormalArgNode annot.getFunction arg = some a ∧
    RecordsFrom M pdg annot.getFunction a f

/-- `partition` returns `P`: its loops end and no assertion fails. -/
structure Returns (fuel : Nat) (P : Partition F G) : Prop where
  partition : partition M pdg annot fuel = some P
  assertFailed : ∀ t, canPartition M pdg annot = true → traverse M pdg annot fuel = some t →
    t.assertFailed = false

variable {M pdg annot}

/-- The functions related by the loop over the annotated arguments. -/
theorem mem_related_foldlM {fuel : Nat} {args : List Nat} {s t : TraverseState F G V N}
    (h : args.foldlM (fun s arg => if isPointerArg M annot arg then
      traverseForArgument M pdg fuel annot.getFunction arg s else some s) s = some t)
    (ht : t.assertFailed = false) (f : F) :
    s.assertFailed = false ∧ (f ∈ t.partition.relatedFunctions ↔
      f ∈ s.partition.relatedFunctions ∨ ∃ arg ∈ args, ArgumentRecords M pdg annot arg f) := by
  induction args generalizing s with
  | nil =>
    cases h
    exact ⟨ht, by simp⟩
  | cons arg args ih =>
    rw [List.foldlM_cons] at h
    obtain ⟨u, hu, h⟩ := Option.bind_eq_some_iff.1 h
    obtain ⟨hassert, hiff⟩ := ih h
    have hcons : (∃ b ∈ arg :: args, ArgumentRecords M pdg annot b f) ↔
        ArgumentRecords M pdg annot arg f ∨ ∃ b ∈ args, ArgumentRecords M pdg annot b f := by
      simp only [List.mem_cons, exists_eq_or_imp]
    rw [hiff, hcons, ← or_assoc]
    split at hu
    · next hptr =>
      obtain ⟨hs, harg⟩ := mem_related_traverseForArgument hu hassert f
      refine ⟨hs, or_congr_left ?_⟩
      rw [harg]
      exact or_congr_right ⟨fun hrec => ⟨hptr, hrec⟩, fun hrec => hrec.2⟩
    · next hptr =>
      cases hu
      exact ⟨hassert, or_congr_left (or_iff_left fun hrec => hptr hrec.1).symm⟩

theorem returns_of_traverse {fuel : Nat} {t : TraverseState F G V N}
    (hcan : canPartition M pdg annot = true) (h : traverse M pdg annot fuel = some t)
    (ht : t.assertFailed = false) : Returns M pdg annot fuel t.partition where
  partition := by
    unfold partition
    rw [if_pos hcan, h]
    rfl
  assertFailed u _ hu := by
    rw [h] at hu
    cases hu
    exact ht

theorem returns_empty {fuel : Nat} (hcan : canPartition M pdg annot = false) :
    Returns M pdg annot fuel {} where
  partition := by
    unfold partition
    rw [hcan]
    rfl
  assertFailed t htrue := by
    rw [hcan] at htrue
    cases htrue

/-- **The related functions** of a run that returns. -/
theorem mem_relatedFunctions_iff {fuel : Nat} {P : Partition F G}
    (h : Returns M pdg annot fuel P) (f : F) :
    f ∈ P.relatedFunctions ↔ canPartition M pdg annot = true ∧
      ∃ arg ∈ annot.getAnnotatedArguments, ArgumentRecords M pdg annot arg f := by
  have hpartition := h.partition
  unfold partition at hpartition
  split at hpartition
  · next hcan =>
    obtain ⟨t, ht, rfl⟩ := Option.map_eq_some_iff.1 hpartition
    obtain ⟨-, hiff⟩ := mem_related_foldlM (f := f) ht (h.assertFailed t hcan ht)
    rw [hiff, and_iff_right hcan]
    exact or_iff_right fun hf => Finmap.notMem_empty hf
  · next hcan =>
    cases hpartition
    exact iff_of_false Finmap.notMem_empty fun hf => hcan hf.1

/-- **Annotating more arguments** loses no related function, unless the longer list has an argument
that is no pointer and the walks of the shorter one record something. -/
theorem related_subset_iff {annot annot' : Annotation F}
    (hfun : annot'.getFunction = annot.getFunction)
    (hsub : ∀ arg ∈ annot.getAnnotatedArguments, arg ∈ annot'.getAnnotatedArguments)
    {fuel fuel' : Nat} {P P' : Partition F G} (h : Returns M pdg annot fuel P)
    (h' : Returns M pdg annot' fuel' P') :
    (∀ f ∈ P.relatedFunctions, f ∈ P'.relatedFunctions) ↔
      canPartition M pdg annot = false ∨
        (∀ arg ∈ annot'.getAnnotatedArguments, isPointerArg M annot' arg = true) ∨
        ∀ arg ∈ annot.getAnnotatedArguments, ∀ f, ¬ ArgumentRecords M pdg annot arg f := by
  have hrec : ∀ arg f, ArgumentRecords M pdg annot arg f → ArgumentRecords M pdg annot' arg f := by
    intro arg f hr
    unfold ArgumentRecords isPointerArg
    rw [hfun]
    exact hr
  have hguard : canPartition M pdg annot = true → (canPartition M pdg annot' = true ↔
      ∀ arg ∈ annot'.getAnnotatedArguments, isPointerArg M annot' arg = true) := by
    intro hcan
    unfold canPartition at hcan ⊢
    simp only [Bool.and_eq_true, Bool.not_eq_true', List.isEmpty_eq_false_iff, hfun,
      List.all_eq_true] at hcan ⊢
    obtain ⟨⟨hne, hpdg⟩, -⟩ := hcan
    obtain ⟨arg, harg⟩ := List.exists_mem_of_ne_nil _ hne
    exact and_iff_right ⟨List.ne_nil_of_mem (hsub arg harg), hpdg⟩
  simp only [mem_relatedFunctions_iff h, mem_relatedFunctions_iff h']
  constructor
  · intro hall
    by_contra hno
    simp only [not_or, Bool.not_eq_false] at hno
    obtain ⟨hcan, hptr, hnone⟩ := hno
    refine hnone fun arg harg f hr => hptr ?_
    exact (hguard hcan).1 (hall f ⟨hcan, arg, harg, hr⟩).1
  · rintro (hcan | hptr | hnone) f ⟨htrue, arg, harg, hr⟩
    · rw [hcan] at htrue
      cases htrue
    · exact ⟨(hguard htrue).2 hptr, arg, hsub arg harg,
        hrec arg f hr⟩
    · exact absurd hr (hnone arg harg f)

/-- `void work(int* p, int* q, int n)` in place of `void work(int* p)`. -/
def mixedModule : Module LateFunction Empty LateNode :=
  { lateModule with
    argTypes
      | .work => [.pointer, .pointer, .integer 32]
      | .log => [.pointer]
      | .flush => [] }

def workAnnotated (args : List Nat) : Annotation LateFunction :=
  { lateAnnotation with getAnnotatedArguments := args }

theorem mixed_returns (args : List Nat)
    (hcan : canPartition mixedModule latePDG (workAnnotated args) = true)
    (h : (traverse mixedModule latePDG (workAnnotated args) 20).map
      (fun t => (t.assertFailed, decide (.flush ∈ t.partition.relatedFunctions))) =
        some (false, true)) :
    ∃ P, Returns mixedModule latePDG (workAnnotated args) 20 P ∧ .flush ∈ P.relatedFunctions := by
  obtain ⟨t, ht, hfound⟩ := Option.map_eq_some_iff.1 h
  obtain ⟨hassert, hflush⟩ := Prod.mk.inj hfound
  exact ⟨t.partition, returns_of_traverse hcan ht hassert, of_decide_eq_true hflush⟩

/-- With `p` alone annotated `flush` is related, with `p` and the integer `n` nothing is. -/
theorem mixed_lost :
    ∃ P P', Returns mixedModule latePDG (workAnnotated [0]) 20 P ∧
      Returns mixedModule latePDG (workAnnotated [0, 2]) 20 P' ∧
      .flush ∈ P.relatedFunctions ∧ .flush ∉ P'.relatedFunctions := by
  obtain ⟨P, hP, hflush⟩ := mixed_returns [0] (by decide) (by decide)
  exact ⟨P, {}, hP, returns_empty (by decide), hflush, Finmap.notMem_empty⟩

/-- With both pointers annotated everything stays related. -/
theorem mixed_subset_iff :
    ∃ P P', Returns mixedModule latePDG (workAnnotated [0]) 20 P ∧
      Returns mixedModule latePDG (workAnnotated [0, 1]) 20 P' ∧
      ((∀ f ∈ P.relatedFunctions, f ∈ P'.relatedFunctions) ↔
        canPartition mixedModule latePDG (workAnnotated [0]) = false ∨
          (∀ arg ∈ [0, 1], isPointerArg mixedModule (workAnnotated [0, 1]) arg = true) ∨
          ∀ arg ∈ [0], ∀ f,
            ¬ ArgumentRecords mixedModule latePDG (workAnnotated [0]) arg f) := by
  obtain ⟨P, hP, -⟩ := mixed_returns [0] (by decide) (by decide)
  obtain ⟨P', hP', -⟩ := mixed_returns [0, 1] (by decide) (by decide)
  have hsub : ∀ arg ∈ (workAnnotated [0]).getAnnotatedArguments,
      arg ∈ (workAnnotated [0, 1]).getAnnotatedArguments := by decide
  have hfun : (workAnnotated [0, 1]).getFunction = (workAnnotated [0]).getFunction := rfl
  exact ⟨P, P', hP, hP', related_subset_iff hfun hsub hP hP'⟩

end PartitionForArguments

end Vazgen
