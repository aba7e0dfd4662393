import Vazgen.Optimization.OptimizerRun

/-!
# The globals of the optimised partitions

GLOBALS_MOVE_TO gives each partition the globals that it alone uses.  A global that both use is
given to neither, so every global has exactly one owner only if no global is shared
(`globalsMoveTo_owned_iff`).
-/

namespace Vazgen

open Worklist

variable {F G V N R : Type}

namespace PartitionOptimizer

section Globals

variable [DecidableEq F] [DecidableEq G]

/-- The globals of a partition that the other one does not have. -/
def ownGlobals (s : State F G) (side : Side) : Finset G :=
  GlobalsMoveToPartitionOptimization.run (s.getPartition side.complement).partitionGlobals
    (s.getPartition side)

/-- The globals while the optimisations run: those of the state before, and each GLOBALS_MOVE_TO has
collected the ones of its partition. -/
structure GlobalsCollected (s₀ s : State F G) : Prop where
  globals : ∀ side, (s.getPartition side).partitionGlobals = (s₀.getPartition side).partitionGlobals
  moved : ∀ side moved, .globalsMoveTo side moved ∈ s.optimizations → moved = ownGlobals s₀ side

omit [DecidableEq F] in
theorem GlobalsCollected.ownGlobals_eq {s₀ s : State F G} (h : GlobalsCollected s₀ s) (side : Side) :
    ownGlobals s side = ownGlobals s₀ side := by
  unfold ownGlobals GlobalsMoveToPartitionOptimization.run
  rw [h.globals side, h.globals side.complement]

variable [Zero R] [One R] [Add R] [Neg R] [Sub R] [Mul R] [SMul ℤ R] [DecidableEq R] [LT R]
  [DecidableLT R] [LE R] [DecidableLE R] {env : Environment F G V N R} {opt : Optimization}
  {opts : List Optimization} {s₀ s s' t : State F G}

theorem GlobalsCollected.step (h : GlobalsCollected s₀ s) {side : Side}
    (hst : runOptimizer env opt side s = some s') : GlobalsCollected s₀ s' := by
  obtain ⟨obj, hobj, rfl⟩ | ⟨-, P, Q, hrun, rfl⟩ := runOptimizer_cases hst
  · refine ⟨fun side' => ?_, fun side' moved hmem => ?_⟩
    · rw [getPartition_push]
      exact h.globals side'
    rcases List.mem_append.1 hmem with hmem | hmem
    · exact h.moved side' moved hmem
    · cases List.mem_singleton.1 hmem
      cases hobj
      exact h.ownGlobals_eq _
  · obtain ⟨hP, hQ⟩ := KLOptimizationPass.partitionGlobals_run hrun
    refine ⟨fun side' => ?_, fun side' moved hmem => ?_⟩
    · cases side' with
      | secure => exact hP.trans (h.globals .secure)
      | insecure => exact hQ.trans (h.globals .insecure)
    · rcases List.mem_append.1 hmem with hmem | hmem
      · exact h.moved side' moved hmem
      · cases List.mem_singleton.1 hmem

theorem globalsCollected_of_run (h : opts.foldlM (runOptimization env) s = some t)
    (hs : s.optimizations = []) : GlobalsCollected s t :=
  runOptimizations_induct (fun _ _ _ _ _ hs hst => hs.step hst)
    ⟨fun _ => rfl, fun _ _ hmem => by rw [hs] at hmem; cases hmem⟩ h

theorem globalsMoveTo_mem (h : runOptimization env s .globalsMoveTo = some s') (side : Side) :
    ∃ moved, .globalsMoveTo side moved ∈ s'.optimizations := by
  cases h
  cases side with
  | secure => exact ⟨_, List.mem_append_left _ (List.mem_append_right _ List.mem_cons_self)⟩
  | insecure => exact ⟨_, List.mem_append_right _ List.mem_cons_self⟩

/-- A list with GLOBALS_MOVE_TO collects the globals of both partitions. -/
theorem exists_globalsMoveTo (hopt : .globalsMoveTo ∈ opts)
    (h : opts.foldlM (runOptimization env) s = some t) (side : Side) :
    ∃ moved, .globalsMoveTo side moved ∈ t.optimizations := by
  induction opts generalizing s with
  | nil => cases hopt
  | cons opt opts ih =>
    rw [List.foldlM_cons] at h
    obtain ⟨s₁, hs₁, hrest⟩ := Option.bind_eq_some_iff.1 h
    rcases List.mem_cons.1 hopt with rfl | hopt
    · obtain ⟨moved, hmem⟩ := globalsMoveTo_mem hs₁ side
      exact ⟨moved, runOptimizations_induct
        (P := fun s => .globalsMoveTo side moved ∈ s.optimizations)
        (fun _ _ _ _ _ hs hst => mem_optimizations_of_runOptimizer hs hst) hmem hrest⟩
    · exact ih hopt hrest

/-- What a run with GLOBALS_MOVE_TO leaves: each partition's own globals. -/
theorem globals_of_run_globalsMoveTo {secure insecure S I : Partition F G}
    (hopt : .globalsMoveTo ∈ opts) (h : run env secure insecure opts = some (S, I)) :
    S.partitionGlobals = secure.partitionGlobals \ insecure.partitionGlobals ∧
      I.partitionGlobals = insecure.partitionGlobals \ secure.partitionGlobals := by
  obtain ⟨s, hs, happly⟩ := run_cases h
  have hcollected := globalsCollected_of_run hs rfl
  have hglobals : ∀ side, ((s.optimizations.foldl applyOptimization s).getPartition
      side).partitionGlobals = ownGlobals
        { securePartition := secure, insecurePartition := insecure } side := by
    intro side
    obtain ⟨moved, hmem⟩ := exists_globalsMoveTo hopt hs side
    have hmoved := hcollected.moved side moved hmem
    exact partitionGlobals_foldl_apply side (hcollected.moved side) (.inr (hmoved ▸ hmem))
  obtain ⟨hS, hI⟩ := partitionGlobals_apply env s
  rw [happly] at hS hI
  constructor
  · rw [Finset.sdiff_eq_filter]
    exact hS.trans (hglobals .secure)
  · rw [Finset.sdiff_eq_filter]
    exact hI.trans (hglobals .insecure)

/-- What a run without GLOBALS_MOVE_TO leaves: the globals that there were. -/
theorem globals_of_run {secure insecure S I : Partition F G} (hopt : .globalsMoveTo ∉ opts)
    (h : run env secure insecure opts = some (S, I)) :
    S.partitionGlobals = secure.partitionGlobals ∧ I.partitionGlobals = insecure.partitionGlobals := by
  obtain ⟨s, hs, happly⟩ := run_cases h
  have hcollected := globalsCollected_of_run hs rfl
  have hnone : ∀ side moved, .globalsMoveTo side moved ∉ s.optimizations := by
    refine runOptimizations_induct
      (P := fun s => ∀ side moved, .globalsMoveTo side moved ∉ s.optimizations)
      (fun opt hmem side u u' hu hst side' moved hobj => ?_) (fun _ _ hobj => by cases hobj) hs
    obtain ⟨obj, hcollects, rfl⟩ | ⟨-, P, Q, -, rfl⟩ := runOptimizer_cases hst
    · rcases List.mem_append.1 hobj with hobj | hobj
      · exact hu side' moved hobj
      · cases List.mem_singleton.1 hobj
        cases hcollects
        exact hopt hmem
    · rcases List.mem_append.1 hobj with hobj | hobj
      · exact hu side' moved hobj
      · cases List.mem_singleton.1 hobj
  have hglobals : ∀ side, ((s.optimizations.foldl applyOptimization s).getPartition
      side).partitionGlobals = (s.getPartition side).partitionGlobals := fun side =>
    partitionGlobals_foldl_apply side (fun moved' hmem => absurd hmem (hnone side moved')) (.inl rfl)
  obtain ⟨hS, hI⟩ := partitionGlobals_apply env s
  rw [happly] at hS hI
  exact ⟨hS.trans ((hglobals .secure).trans (hcollected.globals .secure)),
    hI.trans ((hglobals .insecure).trans (hcollected.globals .insecure))⟩

/-! ## Top theorem -/

/-- `g` is in the global set of exactly one of the two partitions. -/
def OwnedOnce (S I : Partition F G) (g : G) : Prop :=
  (g ∈ S.partitionGlobals ∧ g ∉ I.partitionGlobals) ∨
    (g ∈ I.partitionGlobals ∧ g ∉ S.partitionGlobals)

/-- **When GLOBALS_MOVE_TO keeps every global once**: when the partitions shared none. -/
theorem globalsMoveTo_owned_iff (env : Environment F G V N R) (secure insecure S I : Partition F G)
    (opts : List Optimization) (hopt : .globalsMoveTo ∈ opts)
    (h : run env secure insecure opts = some (S, I)) :
    (∀ g ∈ secure.partitionGlobals ∪ insecure.partitionGlobals, OwnedOnce S I g) ↔
      Disjoint secure.partitionGlobals insecure.partitionGlobals := by
  obtain ⟨hS, hI⟩ := globals_of_run_globalsMoveTo hopt h
  simp only [OwnedOnce, hS, hI, Finset.mem_sdiff, Finset.mem_union, Finset.disjoint_left]
  constructor
  · intro howned g hsecure hinsecure
    rcases howned g (.inl hsecure) with hg | hg
    · exact hg.1.2 hinsecure
    · exact hg.1.2 hsecure
  · intro hdisj g hg
    rcases hg with hg | hg
    · exact .inl ⟨⟨hg, hdisj hg⟩, fun hI => hdisj hg hI.1⟩
    · exact .inr ⟨⟨hg, fun hs => hdisj hs hg⟩, fun hS => hdisj hS.1 hg⟩

end Globals

/-! ## An example

The annotated function `work` calls `log` and `main` with what it is given.  `log` uses the global
`key`; `work` and `main` use `state`. -/

inductive KeyFunction
  | main
  | work
  | log
deriving DecidableEq

instance : Fintype KeyFunction where
  elems := {.main, .work, .log}
  complete f := by cases f <;> decide

inductive KeyGlobal
  | key
  | state
deriving DecidableEq

inductive KeyNode
  | arg
  | callLog
  | callMain
  | logKey
  | workState
  | mainState
  | function (f : KeyFunction)
  | global (g : KeyGlobal)
deriving DecidableEq

def keyModule : Module KeyFunction KeyGlobal KeyNode where
  functions := [.main, .work, .log]
  globals := [.key, .state]
  getName := fun
    | .main => "main"
    | .work => "work"
    | .log => "log"
  isDeclaration _ := false
  isIntrinsic _ := false
  argTypes := fun
    | .work => [.pointer]
    | .main | .log => []
  getReturnType _ := .void
  functionSize _ := 1
  returnInsts _ := []
  valueClass := fun
    | .callLog | .callMain => .callInst
    | _ => .other

def keyEdges : List (PDGEdge KeyNode) :=
  [{ getSource := .arg, getDestination := .callLog, isControlEdge := false },
    { getSource := .arg, getDestination := .callMain, isControlEdge := false },
    { getSource := .callLog, getDestination := .function .log, isControlEdge := true },
    { getSource := .callMain, getDestination := .function .main, isControlEdge := true },
    { getSource := .global .key, getDestination := .logKey, isControlEdge := false },
    { getSource := .global .state, getDestination := .workState, isControlEdge := false },
    { getSource := .global .state, getDestination := .mainState, isControlEdge := false }]

/-- The function that a node stands in. -/
def keyParent : KeyNode → Option KeyFunction
  | .arg | .callLog | .callMain | .workState => some .work
  | .logKey => some .log
  | .mainState => some .main
  | .function f => some f
  | .global _ => none

def keyPDG : PDG KeyFunction KeyGlobal KeyNode KeyNode where
  kind := fun
    | .arg => .formalArgument .work
    | .callLog | .callMain | .workState => .instruction .work
    | .logKey => .instruction .log
    | .mainState => .instruction .main
    | .function f => .function f
    | .global _ => .globalVariable
  isLLVMNode _ := true
  getNodeValue n := some n
  getParent := keyParent
  isPointerArgOperand _ := false
  outEdges n := keyEdges.filter (·.getSource = n)
  inEdges n := keyEdges.filter (·.getDestination = n)
  hasFunctionPDG _ := true
  getCallSites := fun
    | .main => [{ getInstruction := .callMain, getCaller := .work, getParent := .callMain }]
    | .work => []
    | .log => [{ getInstruction := .callLog, getCaller := .work, getParent := .callLog }]
  llvmNodes := fun
    | .work => [(.callLog, .callLog), (.callMain, .callMain)]
    | .main | .log => []
  getNode _ _ := none
  getFormalArgNode := fun
    | .work, 0 => some .arg
    | _, _ => none
  getGlobalVariableNode g := some (.global g)

/-- No edge joins the nodes, so that the solver can move all that no constraint holds back. -/
def keyEnvironment : Environment KeyFunction KeyGlobal KeyNode KeyNode ℚ where
  module := keyModule
  pdg := keyPDG
  callgraph :=
    { functionNodes :=
        [{ getFunction := .main, getWeight := Weight.new },
          { getFunction := .work, getWeight := Weight.new },
          { getFunction := .log, getWeight := Weight.new }] }
  loopInfoGetter _ := none
  order :=
    { list := fun s => [.main, .work, .log].filter (· ∈ s)
      nodup := fun s => List.Nodup.filter _ (by decide)
      mem := fun s f => by cases f <;> simp }
  solve program := some fun var =>
    if program.constraints.any fun c => c.terms = [(var, 1)] ∧ c.relation = .le ∧ c.bound = 0 then 0
    else 1

def keyAnnotated : Annotation KeyFunction where
  getAnnotation := "secure"
  getFunction := .work
  getAnnotatedArguments := [0]

/-- Partition and optimise the example, and look at the partitions before and after. -/
theorem exists_key_run (opts : List Optimization)
    (p : Partition KeyFunction KeyGlobal → Partition KeyFunction KeyGlobal →
      Partition KeyFunction KeyGlobal → Partition KeyFunction KeyGlobal → Bool)
    (h : ((Partitioner.partition keyModule keyPDG 10 [keyAnnotated]).bind fun (secure, insecure) =>
      (run keyEnvironment secure insecure opts).map fun (S, I) => p secure insecure S I) = some true) :
    ∃ secure insecure S I,
      Partitioner.partition keyModule keyPDG 10 [keyAnnotated] = some (secure, insecure) ∧
      run keyEnvironment secure insecure opts = some (S, I) ∧ p secure insecure S I = true := by
  obtain ⟨⟨secure, insecure⟩, hpartition, h⟩ := Option.bind_eq_some_iff.1 h
  obtain ⟨⟨S, I⟩, hrun, h⟩ := Option.map_eq_some_iff.1 h
  exact ⟨secure, insecure, S, I, hpartition, hrun, h⟩

/-- Both partitions use `state`, and neither has it afterwards. -/
theorem state_lost : ∃ secure insecure S I,
    Partitioner.partition keyModule keyPDG 10 [keyAnnotated] = some (secure, insecure) ∧
    run keyEnvironment secure insecure [.globalsMoveTo] = some (S, I) ∧
    ¬∀ g ∈ secure.partitionGlobals ∪ insecure.partitionGlobals, OwnedOnce S I g := by
  obtain ⟨secure, insecure, S, I, hpartition, hrun, h⟩ := exists_key_run
    [.globalsMoveTo]
    (fun secure _ S I => KeyGlobal.state ∈ secure.partitionGlobals ∧
      KeyGlobal.state ∉ S.partitionGlobals ∧ KeyGlobal.state ∉ I.partitionGlobals) (by decide)
  obtain ⟨hsecure, hS, hI⟩ := of_decide_eq_true h
  refine ⟨secure, insecure, S, I, hpartition, hrun, fun howned => ?_⟩
  rcases howned .state (Finset.mem_union_left _ hsecure) with hg | hg
  · exact hS hg.1
  · exact hI hg.1

theorem state_owned_iff : ∃ secure insecure S I,
    Partitioner.partition keyModule keyPDG 10 [keyAnnotated] = some (secure, insecure) ∧
    run keyEnvironment secure insecure [.globalsMoveTo, .globalsMoveTo] = some (S, I) ∧
    ((∀ g ∈ secure.partitionGlobals ∪ insecure.partitionGlobals, OwnedOnce S I g) ↔
      Disjoint secure.partitionGlobals insecure.partitionGlobals) := by
  obtain ⟨secure, insecure, S, I, hpartition, hrun, -⟩ := exists_key_run
    [.globalsMoveTo, .globalsMoveTo] (fun _ _ _ _ => true) (by decide)
  exact ⟨secure, insecure, S, I, hpartition, hrun,
    globalsMoveTo_owned_iff keyEnvironment secure insecure S I _ (by decide) hrun⟩

end PartitionOptimizer

end Vazgen
