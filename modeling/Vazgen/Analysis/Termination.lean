import Vazgen.Analysis.Sensitivity

/-!
# When the sensitivity analysis ends

The three walks of an annotation end when none of them reaches a cycle of nodes that it expands at
every visit (`RepeatFree`), and only then if values identify the nodes that are marked by them
(`analysisEnds_iff`).  A recursive function that passes its annotated pointer parameter on has
such a cycle, of argument nodes (`recursive_not_ends`).
-/

namespace Vazgen

open Worklist

variable {F G V N : Type} [DecidableEq F] (M : Module F G V) (pdg : PDG F G V N)

/-! ## The list of the backward walk -/

/-- `m` is the node of a value that a store on the forward walk from `n` stores. -/
def StoreOperand (annotated : F) (n m : N) : Prop :=
  ∃ k, Reached pdg (forwardLoop M pdg annotated).drop (outNeighbours pdg) (· = n) k ∧
    (forwardLoop M pdg annotated).drop k = false ∧ pdg.functionOf k = none ∧
    storeOperandNode M pdg annotated k = some m

/-- Visiting a node adds the operand it stores to the list of the backward walk. -/
theorem result_visitNode (annotated : F) (n : N) (s : TraverseState F G V N) :
    (visitNode M pdg (forwardLoop M pdg annotated) annotated n s).result =
      (if pdg.functionOf n = none then (storeOperandNode M pdg annotated n).toList else []) ++
        s.result := by
  unfold visitNode
  cases hf : pdg.functionOf n with
  | some f => simp
  | none =>
    simp only [forwardLoop, result_queueNeighbours, result_collectStoreOperand, if_true]
    split
    · rw [result_collectNodesForActualArg]
    · rfl

/-- The values the forward and the backward walk mark nodes by identify the nodes. -/
def PDG.InstructionsDistinct : Prop :=
  ∀ n m v, pdg.isInstruction n = true → pdg.isInstruction m = true →
    pdg.getNodeValue n = some v → pdg.getNodeValue m = some v → n = m

section Keys

variable {pdg}

omit [DecidableEq F] in
theorem PDG.InstructionsDistinct.eq_of_key (hd : pdg.InstructionsDistinct) {n m : N} {v : V}
    (hn : (if pdg.isInstruction n then pdg.getNodeValue n else none) = some v)
    (hm : (if pdg.isInstruction m then pdg.getNodeValue m else none) = some v) : n = m := by
  split at hn
  · split at hm
    · exact hd n m v ‹_› ‹_› hn hm
    · cases hm
  · cases hn

theorem keysDistinct_forwardLoop (annotated : F) (hd : pdg.InstructionsDistinct) :
    (forwardLoop M pdg annotated).KeysDistinct :=
  fun _ _ _ _ _ hn hm => hd.eq_of_key hn hm

theorem keysDistinct_backwardLoop (hd : pdg.InstructionsDistinct) :
    (backwardLoop (F := F) (G := G) pdg).KeysDistinct :=
  fun _ _ _ _ _ hn hm => hd.eq_of_key hn hm

end Keys

section StoreOperand

variable [DecidableEq V] {M pdg} {annotated : F} {n : N} {fuel : Nat} {s t : TraverseState F G V N}

/-- The backward walk starts from store operands only. -/
theorem storeOperand_of_mem_result (h : traverseForward M pdg fuel annotated n s = some t) {m : N}
    (hm : m ∈ t.result) : StoreOperand M pdg annotated n m := by
  refine (whileSome_induct (P := fun s => (∀ m ∈ s.result, StoreOperand M pdg annotated n m) ∧
    ∀ k ∈ s.workingList, Reached pdg (forwardLoop M pdg annotated).drop (outNeighbours pdg)
      (· = n) k) ?_ fuel _ t ?_ h).1.1 m hm
  · rintro s s' ⟨hres, hpend⟩ - hst
    refine ⟨?_, pending_reached (queues_forwardLoop M pdg annotated)
      (queuesNeighbours_forward pdg) hpend hst⟩
    obtain ⟨k, rest, hw, hcase⟩ := traverseStep_cases M pdg _ annotated hst
    rcases hcase with ⟨-, rfl⟩ | ⟨hd, pv, rfl⟩
    · exact hres
    · intro m hm
      rw [result_visitNode, List.mem_append] at hm
      rcases hm with hm | hm
      · split at hm
        · next hf =>
          rw [Option.mem_toList] at hm
          exact ⟨k, hpend k (by rw [hw]; exact List.mem_cons_self), hd, hf, hm⟩
        · cases hm
      · exact hres m hm
  · refine ⟨fun m hm => (List.not_mem_nil hm).elim, fun k hk => ?_⟩
    rw [List.mem_singleton] at hk
    exact .start hk

/-- Every store operand is on the list of the backward walk. -/
theorem mem_result_of_storeOperand (hd : pdg.InstructionsDistinct)
    (h : traverseForward M pdg fuel annotated n s = some t) {m : N}
    (hm : StoreOperand M pdg annotated n m) : m ∈ t.result := by
  obtain ⟨k, hk, hdrop, hf, hm⟩ := hm
  obtain ⟨D, hD, hall⟩ := walk_induct (queues_forwardLoop M pdg annotated)
    (queuesNeighbours_forward pdg)
    (P := fun D s => ∀ k ∈ D, (forwardLoop M pdg annotated).drop k = false →
      pdg.functionOf k = none → ∀ m, storeOperandNode M pdg annotated k = some m → m ∈ s.result)
    (fun a b v _ _ => keysDistinct_forwardLoop M annotated hd a b v)
    (fun D s k rest hP _ hk a ha hda hfa m hm => by
      rcases ha with rfl | ha
      · rcases hk with hk | hk
        · rw [hk] at hda; cases hda
        · exact hP a hk hda hfa m hm
      · exact hP a ha hda hfa m hm)
    (fun D s k rest pv hP _ _ _ a ha hda hfa m hm => by
      rw [result_visitNode, List.mem_append]
      rcases ha with rfl | ha
      · rw [if_pos hfa, Option.mem_toList]
        exact .inl hm
      · exact .inr (hP a ha hda hfa m hm))
    rfl rfl (fun a ha => ha.elim) h
  refine hD k (hall k (hk.mono fun a ha => ?_)) hdrop hf m hm
  rw [ha]
  exact List.mem_singleton_self n

end StoreOperand

/-! ## Termination -/

section Fuel

variable [DecidableEq V] {M pdg} {annotated : F} {fuel : Nat} {s t : TraverseState F G V N}

theorem traverseForArgument_mono {arg : Nat} (more : Nat)
    (h : traverseForArgument M pdg fuel annotated arg s = some t) :
    traverseForArgument M pdg (fuel + more) annotated arg s = some t := by
  unfold traverseForArgument at h ⊢
  split at h
  · exact h
  · obtain ⟨u, hu, ht⟩ := Option.bind_eq_some_iff.1 h
    exact Option.bind_eq_some_iff.2
      ⟨u, whileSome_mono fuel _ u hu more, whileSome_mono fuel _ t ht more⟩

/-- The walks of an annotated argument end when neither meets a cycle. -/
theorem exists_traverseForArgument [Finite N] {arg : Nat}
    (h : ∀ n, pdg.getFormalArgNode annotated arg = some n →
      NoRepeatCycle pdg (forwardLoop M pdg annotated) (outNeighbours pdg) (· = n) ∧
      NoRepeatCycle pdg (backwardLoop (F := F) (G := G) pdg) (inNeighbours pdg)
        (StoreOperand M pdg annotated n)) (s : TraverseState F G V N) :
    ∃ fuel t, traverseForArgument M pdg fuel annotated arg s = some t := by
  unfold traverseForArgument
  cases hn : pdg.getFormalArgNode annotated arg with
  | none => exact ⟨0, s, rfl⟩
  | some n =>
    obtain ⟨hfwd, hbwd⟩ := h n hn
    have hforward : ∃ fuel u, traverseForward M pdg fuel annotated n s = some u := by
      refine loop_ends M pdg annotated (queues_forwardLoop M pdg annotated)
        (queuesNeighbours_forward pdg) rfl fun k hk => hfwd k (hk.mono fun a ha => ?_)
      exact List.mem_singleton.1 ha
    obtain ⟨a, u, hu⟩ := hforward
    have hbackward : ∃ fuel t, traverseBackward M pdg fuel annotated u = some t :=
      loop_ends M pdg annotated (queues_backwardLoop pdg) (queuesNeighbours_backward pdg) rfl
        fun k hk => hbwd k (hk.mono fun m hm => storeOperand_of_mem_result hu hm)
    obtain ⟨b, t, ht⟩ := hbackward
    refine ⟨a + b, t, Option.bind_eq_some_iff.2 ⟨u, whileSome_mono a _ u hu b, ?_⟩⟩
    rw [Nat.add_comm]
    exact whileSome_mono b _ t ht a

/-- When values identify instruction nodes, walks that end meet no cycle. -/
theorem noRepeatCycle_of_traverseForArgument (hd : pdg.InstructionsDistinct) {arg : Nat}
    (h : traverseForArgument M pdg fuel annotated arg s = some t) {n : N}
    (hn : pdg.getFormalArgNode annotated arg = some n) :
    NoRepeatCycle pdg (forwardLoop M pdg annotated) (outNeighbours pdg) (· = n) ∧
      NoRepeatCycle pdg (backwardLoop (F := F) (G := G) pdg) (inNeighbours pdg)
        (StoreOperand M pdg annotated n) := by
  unfold traverseForArgument at h
  rw [hn] at h
  obtain ⟨u, hu, ht⟩ := Option.bind_eq_some_iff.1 h
  constructor
  · intro k hk
    refine noRepeatCycle_of_ends M pdg annotated (queues_forwardLoop M pdg annotated)
      (queuesNeighbours_forward pdg) (keysDistinct_forwardLoop M annotated hd) rfl ⟨fuel, u, hu⟩ k
      (hk.mono fun a ha => ?_)
    exact List.mem_singleton.2 ha
  · intro k hk
    refine noRepeatCycle_of_ends M pdg annotated (queues_backwardLoop pdg)
      (queuesNeighbours_backward pdg) (keysDistinct_backwardLoop hd) rfl ⟨fuel, t, ht⟩ k
      (hk.mono fun m hm => ?_)
    exact mem_result_of_storeOperand hd hu hm

end Fuel

/-- No walk of the annotation that `canPartition` lets start reaches a cycle of nodes that it
expands at every visit. -/
structure RepeatFree (annot : Annotation F) : Prop where
  forward : PartitionForArguments.canPartition M pdg annot = true →
    ∀ arg ∈ annot.getAnnotatedArguments, ∀ n,
      pdg.getFormalArgNode annot.getFunction arg = some n →
      NoRepeatCycle pdg (forwardLoop M pdg annot.getFunction) (outNeighbours pdg) (· = n)
  backward : PartitionForArguments.canPartition M pdg annot = true →
    ∀ arg ∈ annot.getAnnotatedArguments, ∀ n,
      pdg.getFormalArgNode annot.getFunction arg = some n →
      NoRepeatCycle pdg (backwardLoop (F := F) (G := G) pdg) (inNeighbours pdg)
        (StoreOperand M pdg annot.getFunction n)
  returnValue : PartitionForReturnValue.canPartition M pdg annot = true →
    NoRepeatCycle pdg (returnLoop (F := F) (G := G) pdg) (inNeighbours pdg)
      (· ∈ PartitionForReturnValue.returnNodes M pdg annot.getFunction)

/-- All loops that `partition` runs for the annotation end. -/
def AnalysisEnds [DecidableEq V] (annot : Annotation F) : Prop :=
  (∃ fuel P, PartitionForArguments.partition M pdg annot fuel = some P) ∧
    ∃ fuel P, PartitionForReturnValue.partition M pdg annot fuel = some P

section Ends

variable [DecidableEq V] {M pdg} {annot : Annotation F}

theorem RepeatFree.arguments_end [Finite N] (h : RepeatFree M pdg annot) :
    ∃ fuel P, PartitionForArguments.partition M pdg annot fuel = some P := by
  unfold PartitionForArguments.partition
  split
  · next hcan =>
    have hends : ∃ fuel t, PartitionForArguments.traverse M pdg annot fuel = some t := by
      refine exists_foldlM (fun fuel more s arg t hst => ?_) (fun arg harg s => ?_) _
      · split at hst
        · next hp => rw [if_pos hp]; exact traverseForArgument_mono more hst
        · next hp => rw [if_neg hp]; exact hst
      · split
        · exact exists_traverseForArgument
            (fun n hn => ⟨h.forward hcan arg harg n hn, h.backward hcan arg harg n hn⟩) s
        · exact ⟨0, s, rfl⟩
    obtain ⟨fuel, t, ht⟩ := hends
    exact ⟨fuel, t.partition, by rw [ht]; rfl⟩
  · exact ⟨0, {}, rfl⟩

theorem RepeatFree.returnValue_ends [Finite N] (h : RepeatFree M pdg annot) :
    ∃ fuel P, PartitionForReturnValue.partition M pdg annot fuel = some P := by
  unfold PartitionForReturnValue.partition
  split
  · next hcan =>
    have hends : ∃ fuel t, PartitionForReturnValue.traverse M pdg annot fuel = some t :=
      loop_ends M pdg annot.getFunction (queues_returnLoop pdg)
        (queuesNeighbours_backward pdg) rfl (h.returnValue hcan)
    obtain ⟨fuel, t, ht⟩ := hends
    exact ⟨fuel, t.partition, by rw [ht]; rfl⟩
  · exact ⟨0, {}, rfl⟩

/-- The walks of the annotated arguments that end meet no cycle. -/
theorem noRepeatCycle_of_arguments_end (hd : pdg.InstructionsDistinct)
    (hcan : PartitionForArguments.canPartition M pdg annot = true) {fuel : Nat}
    {P : Partition F G} (h : PartitionForArguments.partition M pdg annot fuel = some P)
    {arg : Nat} (harg : arg ∈ annot.getAnnotatedArguments) {n : N}
    (hn : pdg.getFormalArgNode annot.getFunction arg = some n) :
    NoRepeatCycle pdg (forwardLoop M pdg annot.getFunction) (outNeighbours pdg) (· = n) ∧
      NoRepeatCycle pdg (backwardLoop (F := F) (G := G) pdg) (inNeighbours pdg)
        (StoreOperand M pdg annot.getFunction n) := by
  unfold PartitionForArguments.partition at h
  rw [if_pos hcan] at h
  obtain ⟨t, ht, -⟩ := Option.map_eq_some_iff.1 h
  obtain ⟨s', t', hst⟩ := exists_of_foldlM
    (f := fun fuel s arg => if PartitionForArguments.isPointerArg M annot arg then
      traverseForArgument M pdg fuel annot.getFunction arg s else some s) ht arg harg
  have hptr : PartitionForArguments.isPointerArg M annot arg = true := by
    unfold PartitionForArguments.canPartition at hcan
    rw [Bool.and_eq_true, List.all_eq_true] at hcan
    exact hcan.2 arg harg
  rw [if_pos hptr] at hst
  exact noRepeatCycle_of_traverseForArgument hd hst hn

omit [DecidableEq V] in
/-- When every LLVM node carries a value, the walk of the return value marks all it expands. -/
theorem noRepeatCycle_returnLoop
    (hv : ∀ n, pdg.isLLVMNode n = true → (pdg.getNodeValue n).isSome = true) {start : N → Prop} :
    NoRepeatCycle pdg (returnLoop (F := F) (G := G) pdg) (inNeighbours pdg) start := by
  intro n _ hcyc
  obtain ⟨m, ⟨hdrop, hkey, -⟩, -⟩ := Relation.TransGen.head'_iff.1 hcyc
  have hval := hv n (by simpa [returnLoop] using hdrop)
  rw [show pdg.getNodeValue n = none from hkey] at hval
  cases hval

end Ends

/-! ## Top theorem -/

/-- **Termination of the sensitivity analysis.**  The loops end when no cycle of nodes expanded at
every visit is reached; when values identify the instruction nodes and every LLVM node carries one,
they end only then. -/
theorem analysisEnds_iff [Finite N] [DecidableEq V] (annot : Annotation F) :
    (RepeatFree M pdg annot → AnalysisEnds M pdg annot) ∧
      (pdg.InstructionsDistinct →
        (∀ n, pdg.isLLVMNode n = true → (pdg.getNodeValue n).isSome = true) →
        AnalysisEnds M pdg annot → RepeatFree M pdg annot) := by
  refine ⟨fun h => ⟨h.arguments_end, h.returnValue_ends⟩, fun hd hv hends => ?_⟩
  obtain ⟨⟨fuel, P, hP⟩, -⟩ := hends
  exact {
    forward := fun hcan arg harg n hn => (noRepeatCycle_of_arguments_end hd hcan hP harg hn).1
    backward := fun hcan arg harg n hn => (noRepeatCycle_of_arguments_end hd hcan hP harg hn).2
    returnValue := fun _ => noRepeatCycle_returnLoop hv }

omit [DecidableEq F] M pdg

/-- The module of `void f(int* p) { f(p); }`; its only value is `p`. -/
def recursiveModule : Module Unit Empty Unit where
  functions := [()]
  globals := []
  getName _ := "f"
  isDeclaration _ := false
  isIntrinsic _ := false
  argTypes _ := [.pointer]
  getReturnType _ := .void
  functionSize _ := 2
  returnInsts _ := []
  valueClass _ := .other

/-- Its graph: node `0` is the formal argument, node `1` the actual argument of the call, both
carry `p`. -/
def recursivePDG : PDG Unit Empty Unit (Fin 2) where
  kind n := if n = 0 then .formalArgument () else .actualArgument ()
  isLLVMNode _ := true
  getNodeValue _ := some ()
  getParent _ := some ()
  isPointerArgOperand n := n = 1
  outEdges n := [{ getSource := n, getDestination := n + 1, isControlEdge := false }]
  inEdges n := [{ getSource := n + 1, getDestination := n, isControlEdge := false }]
  hasFunctionPDG _ := true
  getCallSites _ := []
  llvmNodes _ := []
  getNode _ _ := none
  getFormalArgNode _ arg := if arg = 0 then some 0 else none
  getGlobalVariableNode g := g.elim

def recursiveAnnotation : Annotation Unit where
  getAnnotation := "secure"
  getFunction := ()
  getAnnotatedArguments := [0]

/-- Formal argument, actual argument, formal argument: the forward walk never ends. -/
theorem recursive_not_ends :
    PartitionForArguments.canPartition recursiveModule recursivePDG recursiveAnnotation = true ∧
      ¬ AnalysisEnds recursiveModule recursivePDG recursiveAnnotation := by
  have hcan : PartitionForArguments.canPartition recursiveModule recursivePDG
      recursiveAnnotation = true := by decide
  refine ⟨hcan, ?_⟩
  rintro ⟨⟨fuel, P, hP⟩, -⟩
  have hd : recursivePDG.InstructionsDistinct := by
    intro n m v hn
    have hno : recursivePDG.isInstruction n = false := by revert n; decide
    rw [hno] at hn
    cases hn
  obtain ⟨hforward, -⟩ := noRepeatCycle_of_arguments_end hd hcan hP (n := 0)
    (show 0 ∈ recursiveAnnotation.getAnnotatedArguments from List.mem_cons_self) rfl
  let edge := repeatEdge recursivePDG (forwardLoop recursiveModule recursivePDG ())
    (outNeighbours recursivePDG)
  have hpass : edge 0 1 := ⟨rfl, rfl, rfl, List.mem_cons_self, rfl⟩
  have hback : edge 1 0 := ⟨rfl, rfl, rfl, List.mem_cons_self, rfl⟩
  exact hforward 0 (.start rfl) (.tail (.single hpass) hback)

/-- The graph of `void f(int* p) { g(p); }` with `g` outside the module: the actual argument leads
nowhere. -/
def passOnPDG : PDG Unit Empty Unit (Fin 2) :=
  { recursivePDG with
    outEdges := fun n => if n = 0 then
      [{ getSource := 0, getDestination := 1, isControlEdge := false }] else []
    inEdges := fun n => if n = 1 then
      [{ getSource := 0, getDestination := 1, isControlEdge := false }] else [] }

theorem passOn_ends : AnalysisEnds recursiveModule passOnPDG recursiveAnnotation := by
  refine (analysisEnds_iff recursiveModule passOnPDG recursiveAnnotation).1 ⟨?_, ?_, ?_⟩
  · intro _ _ _ _ _ n _ hcyc
    have hup : ∀ a b, repeatEdge passOnPDG (forwardLoop recursiveModule passOnPDG ())
        (outNeighbours passOnPDG) a b → a < b := by
      rintro a b ⟨-, -, -, hm, -⟩
      revert a b
      decide
    have hlt := Relation.TransGen.mono hup n n hcyc
    rw [Relation.transGen_eq_self] at hlt
    exact lt_irrefl n hlt
  · intro _ _ _ _ _ n _ hcyc
    have hdown : ∀ a b, repeatEdge passOnPDG (backwardLoop (F := Unit) (G := Empty) passOnPDG)
        (inNeighbours passOnPDG) a b → b < a := by
      rintro a b ⟨-, -, -, hm, -⟩
      revert a b
      decide
    have hlt := Relation.TransGen.mono hdown n n hcyc
    rw [Relation.transGen_eq_self] at hlt
    exact lt_irrefl n hlt
  · intro hcan
    cases hcan

end Vazgen
