import Vazgen.Analysis.Partitioner

/-!
# What the worklist loops of the sensitivity analysis do in one iteration

The control of the three loops is a marking worklist (`traverseStep_toQueue`): the function levels
and the partition have no influence on which nodes are popped.  The effect of an iteration on the
levels and on the related functions is `traverseStep_cases`.
-/

namespace Vazgen

open Worklist

variable {F G V N : Type}

theorem mem_updateFunctionLevel_of_mem [DecidableEq F] {currentF newF : Option F} {f : F}
    {levels : Finmap fun _ : F => Int} (h : f ∈ levels) :
    f ∈ updateFunctionLevel currentF newF levels := by
  unfold updateFunctionLevel
  split
  · exact h
  · exact h
  · split
    · exact h
    · exact MinMap.mem_insertMin.2 (.inr h)

/-- A parent that has a level passes one on. -/
theorem mem_updateFunctionLevel [DecidableEq F] {currentF newF : F} {levels : Finmap fun _ : F => Int}
    (h : currentF ∈ levels) : newF ∈ updateFunctionLevel (some currentF) (some newF) levels := by
  obtain ⟨l, hl⟩ := Finmap.mem_iff.1 h
  simp only [updateFunctionLevel, hl]
  exact MinMap.mem_insertMin.2 (.inl rfl)

/-! ## Effects of the helpers -/

/-- What the helpers of the loops keep: the walk's bookkeeping, the function set, and every level
and related function there is. -/
structure Grows (s s' : TraverseState F G V N) : Prop where
  processedValues : s'.processedValues = s.processedValues
  partition : s'.partition.partition = s.partition.partition
  levels : ∀ f ∈ s.functionLevels, f ∈ s'.functionLevels
  related : ∀ f ∈ s.partition.relatedFunctions, f ∈ s'.partition.relatedFunctions

theorem Grows.refl (s : TraverseState F G V N) : Grows s s := ⟨rfl, rfl, fun _ h => h, fun _ h => h⟩

theorem Grows.trans {s t u : TraverseState F G V N} (h₁ : Grows s t) (h₂ : Grows t u) :
    Grows s u where
  processedValues := h₂.processedValues.trans h₁.processedValues
  partition := h₂.partition.trans h₁.partition
  levels f hf := h₂.levels f (h₁.levels f hf)
  related f hf := h₂.related f (h₁.related f hf)

section Effects

variable [DecidableEq F] (M : Module F G V) (pdg : PDG F G V N) (s : TraverseState F G V N)

theorem grows_addRelatedFunction (f : F) : Grows s (addRelatedFunction f s) := by
  unfold addRelatedFunction
  split
  · exact ⟨rfl, rfl, fun _ h => h, fun _ h => h⟩
  · exact ⟨rfl, rfl, fun _ h => h, fun _ h => MinMap.mem_insertNew.2 (.inr h)⟩

@[simp] theorem workingList_addRelatedFunction (f : F) :
    (addRelatedFunction f s).workingList = s.workingList := by
  unfold addRelatedFunction; split <;> rfl

@[simp] theorem result_addRelatedFunction (f : F) :
    (addRelatedFunction f s).result = s.result := by
  unfold addRelatedFunction; split <;> rfl

theorem grows_visitFunction (annotated f : F) : Grows s (visitFunction M annotated f s) := by
  unfold visitFunction
  split
  · exact .refl s
  · split
    · exact .refl s
    · exact grows_addRelatedFunction s f

@[simp] theorem workingList_visitFunction (annotated f : F) :
    (visitFunction M annotated f s).workingList = s.workingList := by
  unfold visitFunction; split
  · rfl
  · split
    · rfl
    · exact workingList_addRelatedFunction s f

@[simp] theorem result_visitFunction (annotated f : F) :
    (visitFunction M annotated f s).result = s.result := by
  unfold visitFunction; split
  · rfl
  · split
    · rfl
    · exact result_addRelatedFunction s f

theorem grows_queueNeighbours (parent : Option F) (ns : List N) :
    Grows s (queueNeighbours pdg parent ns s) := by
  unfold queueNeighbours
  induction ns generalizing s with
  | nil => exact .refl s
  | cons m ns ih =>
    rw [List.foldl_cons]
    refine Grows.trans ?_ (ih _)
    split
    · exact ⟨rfl, rfl, fun _ h => mem_updateFunctionLevel_of_mem h, fun _ h => h⟩
    · exact .refl s

@[simp] theorem workingList_queueNeighbours (parent : Option F) (ns : List N) :
    (queueNeighbours pdg parent ns s).workingList =
      s.workingList ++ ns.filter (canProcessNode pdg) := by
  unfold queueNeighbours
  induction ns generalizing s with
  | nil => simp
  | cons m ns ih =>
    rw [List.foldl_cons, ih]
    cases hm : canProcessNode pdg m <;> simp [hm]

/-- What depends neither on the worklist nor on the levels stays as it is. -/
theorem queueNeighbours_kept {α : Type} (get : TraverseState F G V N → α)
    (hget : ∀ (s : TraverseState F G V N) workingList functionLevels,
      get { s with workingList := workingList, functionLevels := functionLevels } = get s)
    (parent : Option F) (ns : List N) : get (queueNeighbours pdg parent ns s) = get s := by
  unfold queueNeighbours
  induction ns generalizing s with
  | nil => rfl
  | cons m ns ih =>
    rw [List.foldl_cons, ih]
    split
    · exact hget s _ _
    · rfl

@[simp] theorem partition_queueNeighbours (parent : Option F) (ns : List N) :
    (queueNeighbours pdg parent ns s).partition = s.partition :=
  queueNeighbours_kept pdg s (·.partition) (fun _ _ _ => rfl) parent ns

@[simp] theorem result_queueNeighbours (parent : Option F) (ns : List N) :
    (queueNeighbours pdg parent ns s).result = s.result :=
  queueNeighbours_kept pdg s (·.result) (fun _ _ _ => rfl) parent ns

@[simp] theorem assertFailed_queueNeighbours (parent : Option F) (ns : List N) :
    (queueNeighbours pdg parent ns s).assertFailed = s.assertFailed :=
  queueNeighbours_kept pdg s (·.assertFailed) (fun _ _ _ => rfl) parent ns

theorem queueNeighbours_cons (currentF : Option F) (m : N) (ns : List N)
    (s : TraverseState F G V N) :
    queueNeighbours pdg currentF (m :: ns) s =
      queueNeighbours pdg currentF ns (queueNeighbours pdg currentF [m] s) := rfl

/-- The formal argument nodes that `collectNodesForActualArg` queues. -/
def formalArgTargets (n : N) : List N :=
  if pdg.isPointerArgOperand n then
    (outNeighbours pdg n).filter fun m =>
      match pdg.kind m with
      | .formalArgument f => pdg.hasFunctionPDG f
      | _ => false
  else []

/-- The body of the loop of `collectNodesForActualArg`. -/
def collectFormalArg (parent : Option F) (s : TraverseState F G V N) (m : N) :
    TraverseState F G V N :=
  match pdg.kind m with
  | .formalArgument f =>
    if pdg.hasFunctionPDG f then
      let s :=
        if M.isDeclaration f then s
        else
          addRelatedFunction f { s with
            functionLevels := updateFunctionLevel parent (some f) s.functionLevels }
      { s with workingList := s.workingList ++ [m] }
    else s
  | _ => s

theorem collectNodesForActualArg_eq (n : N) :
    collectNodesForActualArg M pdg n s =
      if pdg.isPointerArgOperand n then
        (outNeighbours pdg n).foldl (collectFormalArg M pdg (pdg.getParent n)) s
      else s := rfl

theorem grows_collectFormalArg (parent : Option F) (m : N) :
    Grows s (collectFormalArg M pdg parent s m) := by
  unfold collectFormalArg
  split
  · split
    · dsimp only
      split
      · exact ⟨rfl, rfl, fun _ h => h, fun _ h => h⟩
      · next f _ _ _ =>
        have h := grows_addRelatedFunction { s with
          functionLevels := updateFunctionLevel parent (some f) s.functionLevels } f
        exact ⟨h.processedValues, h.partition,
          fun g hg => h.levels g (mem_updateFunctionLevel_of_mem hg), h.related⟩
    · exact .refl s
  · exact .refl s

theorem workingList_collectFormalArg (parent : Option F) (m : N) :
    (collectFormalArg M pdg parent s m).workingList = s.workingList ++
      [m].filter fun m =>
        match pdg.kind m with
        | .formalArgument f => pdg.hasFunctionPDG f
        | _ => false := by
  unfold collectFormalArg
  cases hk : pdg.kind m with
  | formalArgument f =>
    dsimp only
    cases hf : pdg.hasFunctionPDG f with
    | true =>
      rw [if_pos rfl, List.filter_singleton, hk]
      simp only [hf]
      split
      · rfl
      · simp
    | false => simp [hk, hf]
  | _ => simp [hk]

theorem result_collectFormalArg (parent : Option F) (m : N) :
    (collectFormalArg M pdg parent s m).result = s.result := by
  unfold collectFormalArg
  split
  · split
    · dsimp only
      split
      · rfl
      · simp
    · rfl
  · rfl

theorem grows_collectNodesForActualArg (n : N) :
    Grows s (collectNodesForActualArg M pdg n s) := by
  rw [collectNodesForActualArg_eq]
  split
  · induction outNeighbours pdg n generalizing s with
    | nil => exact .refl s
    | cons m ms ih => exact (grows_collectFormalArg M pdg s _ m).trans (ih _)
  · exact .refl s

theorem workingList_collectNodesForActualArg (n : N) :
    (collectNodesForActualArg M pdg n s).workingList = s.workingList ++ formalArgTargets pdg n := by
  rw [collectNodesForActualArg_eq]
  unfold formalArgTargets
  split
  · induction outNeighbours pdg n generalizing s with
    | nil => simp
    | cons m ms ih =>
      rw [List.foldl_cons, ih, workingList_collectFormalArg, List.append_assoc, ← List.filter_append]
      rfl
  · simp

theorem result_collectNodesForActualArg (n : N) :
    (collectNodesForActualArg M pdg n s).result = s.result := by
  rw [collectNodesForActualArg_eq]
  split
  · induction outNeighbours pdg n generalizing s with
    | nil => rfl
    | cons m ms ih => rw [List.foldl_cons, ih, result_collectFormalArg]
  · rfl

end Effects

section StoreOperand

variable (M : Module F G V) (pdg : PDG F G V N) (s : TraverseState F G V N)

theorem grows_collectStoreOperand (annotated : F) (n : N) :
    Grows s (collectStoreOperand M pdg annotated n s) := by
  unfold collectStoreOperand
  split <;> exact ⟨rfl, rfl, fun _ h => h, fun _ h => h⟩

@[simp] theorem workingList_collectStoreOperand (annotated : F) (n : N) :
    (collectStoreOperand M pdg annotated n s).workingList = s.workingList := by
  unfold collectStoreOperand; split <;> rfl

@[simp] theorem assertFailed_collectStoreOperand (annotated : F) (n : N) :
    (collectStoreOperand M pdg annotated n s).assertFailed = s.assertFailed := by
  unfold collectStoreOperand; split <;> rfl

theorem result_collectStoreOperand (annotated : F) (n : N) :
    (collectStoreOperand M pdg annotated n s).result =
      (storeOperandNode M pdg annotated n).toList ++ s.result := by
  unfold collectStoreOperand
  cases storeOperandNode M pdg annotated n <;> rfl

end StoreOperand

/-! ## The loops as marking worklists -/

/-- What a loop has to say about its expansion of a node: the nodes it queues, nothing else being
done to the control of the loop. -/
structure TraverseLoop.Queues (loop : TraverseLoop F G V N) (queued : N → List N) : Prop where
  workingList : ∀ n s, (loop.expand n s).workingList = s.workingList ++ queued n
  grows : ∀ n s, Grows s (loop.expand n s)

/-- The control of a loop: function nodes queue nothing. -/
def TraverseLoop.marking (loop : TraverseLoop F G V N) (pdg : PDG F G V N) (queued : N → List N) :
    Marking N V where
  stop := loop.drop
  key := loop.key
  succ n := if (pdg.functionOf n).isSome then [] else queued n

def TraverseState.toQueue (s : TraverseState F G V N) : Queue N V :=
  { pending := s.workingList, marked := s.processedValues }

/-- The nodes `traverseForward` queues at a node. -/
def forwardQueued (pdg : PDG F G V N) (n : N) : List N :=
  (if isActualArgument pdg n then formalArgTargets pdg n else []) ++
    (outNeighbours pdg n).filter (canProcessNode pdg)

/-- The nodes the two backward walks queue at a node. -/
def backwardQueued (pdg : PDG F G V N) (n : N) : List N :=
  (inNeighbours pdg n).filter (canProcessNode pdg)

theorem queues_forwardLoop [DecidableEq F] (M : Module F G V) (pdg : PDG F G V N) (annotated : F) :
    (forwardLoop M pdg annotated).Queues (forwardQueued pdg) where
  workingList n s := by
    simp only [forwardLoop, forwardQueued, workingList_queueNeighbours,
      workingList_collectStoreOperand]
    split
    · rw [workingList_collectNodesForActualArg, List.append_assoc]
    · rfl
  grows n s := by
    simp only [forwardLoop]
    refine Grows.trans ?_ (grows_queueNeighbours pdg _ _ _)
    refine Grows.trans ?_ (grows_collectStoreOperand M pdg _ annotated n)
    split
    · exact grows_collectNodesForActualArg M pdg s n
    · exact .refl s

theorem queues_backwardLoop [DecidableEq F] (pdg : PDG F G V N) :
    (backwardLoop pdg).Queues (backwardQueued pdg) where
  workingList _ s := workingList_queueNeighbours pdg s _ _
  grows _ s := grows_queueNeighbours pdg s _ _

theorem queues_returnLoop [DecidableEq F] (pdg : PDG F G V N) :
    (returnLoop pdg).Queues (backwardQueued pdg) where
  workingList _ s := workingList_queueNeighbours pdg s _ _
  grows _ s := grows_queueNeighbours pdg s _ _

section Step

variable [DecidableEq F] (M : Module F G V) (pdg : PDG F G V N)
  (loop : TraverseLoop F G V N) (annotated : F)

theorem workingList_visitNode {queued : N → List N} (hq : loop.Queues queued) (n : N)
    (s : TraverseState F G V N) :
    (visitNode M pdg loop annotated n s).workingList =
      s.workingList ++ (loop.marking pdg queued).succ n := by
  unfold visitNode TraverseLoop.marking
  cases hf : pdg.functionOf n with
  | some f => simp [hf]
  | none => simp [hf, hq.workingList]

theorem grows_visitNode {queued : N → List N} (hq : loop.Queues queued) (n : N)
    (s : TraverseState F G V N) : Grows s (visitNode M pdg loop annotated n s) := by
  unfold visitNode
  split
  · exact grows_visitFunction M s annotated _
  · exact hq.grows n s

variable [DecidableEq V]

/-- What one iteration can do. -/
theorem traverseStep_cases {s s' : TraverseState F G V N}
    (h : traverseStep M pdg loop annotated s = some s') :
    ∃ n rest, s.workingList = n :: rest ∧
      (((loop.drop n = true ∨ ∃ v ∈ s.processedValues, loop.key n = some v) ∧
          s' = { s with workingList := rest }) ∨
        (loop.drop n = false ∧ ∃ pv, s' = visitNode M pdg loop annotated n
          { s with workingList := rest, processedValues := pv })) := by
  unfold traverseStep at h
  split at h
  · cases h
  · next n rest hw =>
    refine ⟨n, rest, hw, ?_⟩
    dsimp only at h
    split at h
    · next hd => exact .inl ⟨.inl hd, (Option.some.inj h).symm⟩
    · next hd =>
      rw [Bool.not_eq_true] at hd
      split at h
      · exact .inr ⟨hd, s.processedValues, (Option.some.inj h).symm⟩
      · next v hk =>
        split at h
        · next hv => exact .inl ⟨.inr ⟨v, hv, hk⟩, (Option.some.inj h).symm⟩
        · exact .inr ⟨hd, insert v s.processedValues, (Option.some.inj h).symm⟩

/-- **The control of a loop is its marking worklist.** -/
theorem traverseStep_toQueue {queued : N → List N} (hq : loop.Queues queued)
    (s : TraverseState F G V N) :
    (traverseStep M pdg loop annotated s).map TraverseState.toQueue =
      (loop.marking pdg queued).step s.toQueue := by
  have hvisit : ∀ n (s : TraverseState F G V N),
      (visitNode M pdg loop annotated n s).toQueue =
        { pending := s.workingList ++ (loop.marking pdg queued).succ n,
          marked := s.processedValues } := by
    intro n s
    unfold TraverseState.toQueue
    rw [workingList_visitNode M pdg loop annotated hq,
      (grows_visitNode M pdg loop annotated hq n s).processedValues]
  unfold traverseStep Marking.step
  cases hw : s.workingList with
  | nil => simp [TraverseState.toQueue, hw]
  | cons n rest =>
    have hpend : s.toQueue.pending = n :: rest := hw
    rw [hpend]
    dsimp only
    have hstop : (loop.marking pdg queued).stop n = loop.drop n := rfl
    have hkey : (loop.marking pdg queued).key n = loop.key n := rfl
    rw [hstop, hkey]
    cases loop.drop n with
    | true => rfl
    | false =>
      rw [if_neg (by simp), if_neg (by simp)]
      cases loop.key n with
      | none => exact congrArg some (hvisit n _)
      | some v =>
        dsimp only
        by_cases hv : v ∈ s.processedValues
        · rw [if_pos hv, if_pos (show v ∈ s.toQueue.marked from hv)]
          rfl
        · rw [if_neg hv, if_neg (show v ∉ s.toQueue.marked from hv)]
          exact congrArg some (hvisit n _)

end Step

end Vazgen
