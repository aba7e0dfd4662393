import Vazgen.Analysis.PartitionerSets
import Vazgen.Optimization.PartitionOptimization

/-!
# The partition optimiser

`run` constructs and runs one optimisation after the other, for both partitions where the source
does, and then applies all of them in the same order.  The last loop of `apply` makes the two
partitions disjoint again, in favour of the secure one.

**`run_splits_module`**: no function of the module is lost or in both partitions, nothing secure
becomes insecure, and no secure function stays a related one.

**`interfaces_mediate`**: the interfaces of the two partitions are complete and dual to each other,
before and after.
-/

namespace Vazgen

open Worklist

variable {F G V N R : Type}

namespace PartitionOptimizer

/-! ## Algorithm -/

/-- `PartitionOptimizer::Optimization` -/
inductive Optimization where
  | functionsMoveTo
  | globalsMoveTo
  | duplicateFunctions
  | kernighanLin
  | staticAnalysis
  | ilp
  | optNum
deriving DecidableEq

/-- The partition that an optimisation object refers to. -/
inductive Side where
  | secure
  | insecure

def Side.complement : Side → Side
  | .secure => .insecure
  | .insecure => .secure

/-- An optimisation object, with what its `run` has collected. -/
inductive PartitionOptimization (F G : Type) where
  | functionsMoveTo (partition : Side) (movedFunctions : Finset F)
  | globalsMoveTo (partition : Side) (movedGlobals : Finset G)
  | duplicateFunctions (duplicatedFunctions : Finset F)
  | kernighanLin
  | staticAnalysis
  | ilp (movedFunctions : List F)

/-- What the optimiser reads and never changes. -/
structure Environment (F G V N R : Type) where
  module : Module F G V
  pdg : PDG F G V N
  callgraph : CallGraph F R
  loopInfoGetter : LoopInfoGetter F V
  /-- the order of the loops over sets of functions -/
  order : IterationOrder F
  solve : LinearProgram.Program (ILPOptimization.Var F) R → Option (ILPOptimization.Var F → R)

/-- The members that change. -/
structure State (F G : Type) where
  securePartition : Partition F G
  insecurePartition : Partition F G
  optimizations : List (PartitionOptimization F G) := []

namespace State

def getPartition (s : State F G) : Side → Partition F G
  | .secure => s.securePartition
  | .insecure => s.insecurePartition

def setPartition (s : State F G) (side : Side) (P : Partition F G) : State F G :=
  match side with
  | .secure => { s with securePartition := P }
  | .insecure => { s with insecurePartition := P }

def push (s : State F G) (opt : PartitionOptimization F G) : State F G :=
  { s with optimizations := s.optimizations ++ [opt] }

end State

section Model

variable [DecidableEq F] [DecidableEq G]

/-- `runDuplicateFunctionsOptimization`: the first two objects have to be the ones of
FUNCTIONS_MOVE_TO. -/
def runDuplicateFunctions (s : State F G) : Option (State F G) :=
  match s.optimizations[0]?, s.optimizations[1]? with
  | some (PartitionOptimization.functionsMoveTo _ secureFs),
      some (PartitionOptimization.functionsMoveTo _ insecureFs) =>
    some (s.push (.duplicateFunctions (DuplicateFunctionsOptimization.run secureFs insecureFs)))
  | _, _ => none

variable [Zero R] [One R] [Add R] [Neg R] [Sub R] [Mul R] [SMul ℤ R] [DecidableEq R] [LT R]
  [DecidableLT R] [LE R] [DecidableLE R] (env : Environment F G V N R)

/-- Construct the optimisation `opt` for a partition, push it and run it. -/
def runOptimizer (opt : Optimization) (side : Side) (s : State F G) : Option (State F G) :=
  match opt with
  | .functionsMoveTo =>
    (FunctionsMoveToPartitionOptimization.run env.module env.pdg (s.getPartition side)
      env.loopInfoGetter).map fun moved => s.push (.functionsMoveTo side moved)
  | .globalsMoveTo =>
    some (s.push (.globalsMoveTo side (GlobalsMoveToPartitionOptimization.run
      (s.getPartition side.complement).partitionGlobals (s.getPartition side))))
  | .duplicateFunctions => runDuplicateFunctions s
  | .kernighanLin =>
    (KLOptimizer.run env.order env.module env.callgraph s.securePartition s.insecurePartition).map
      fun (secure, insecure) =>
        { securePartition := secure, insecurePartition := insecure
          optimizations := s.optimizations ++ [.kernighanLin] }
  | .staticAnalysis => some (s.push .staticAnalysis)
  | .ilp =>
    some (s.push (.ilp (ILPOptimization.run env.solve env.callgraph env.module s.securePartition)))
  | .optNum => none -- "assert(false)" in getOptimizerFor

/-- The body of the loop of `run`. -/
def runOptimization (s : State F G) (opt : Optimization) : Option (State F G) :=
  (runOptimizer env opt .secure s).bind fun s =>
    match opt with
    | .functionsMoveTo | .globalsMoveTo => runOptimizer env opt .insecure s
    | _ => some s

/-- `apply` of an optimisation object. -/
def applyOptimization (s : State F G) (opt : PartitionOptimization F G) : State F G :=
  match opt with
  | .functionsMoveTo side moved =>
    s.setPartition side (FunctionsMoveToPartitionOptimization.apply moved (s.getPartition side))
  | .globalsMoveTo side moved =>
    s.setPartition side (GlobalsMoveToPartitionOptimization.apply moved (s.getPartition side))
  | .duplicateFunctions _ => s
  | .kernighanLin => s
  | .staticAnalysis =>
    { s with securePartition := StaticAnalysisOptimization.apply s.securePartition }
  | .ilp moved =>
    let (secure, insecure) := ILPOptimization.apply moved s.securePartition s.insecurePartition
    { s with securePartition := secure, insecurePartition := insecure }

/-- The loop of `apply` over the secure functions. -/
def purge (s : State F G) : State F G :=
  (env.order.list s.securePartition.partition).foldl (fun s f =>
    { s with
      insecurePartition := s.insecurePartition.removeFromPartition f
      securePartition := s.securePartition.removeRelatedFunction f }) s

def setInterfaces (P : Partition F G) : Partition F G :=
  (P.setInInterface (computeInInterface env.pdg P.partition)).setOutInterface
    (computeOutInterface env.module env.pdg P.partition)

/-- `apply` -/
def apply (s : State F G) : Partition F G × Partition F G :=
  let s := purge env (s.optimizations.foldl applyOptimization s)
  (setInterfaces env s.securePartition, setInterfaces env s.insecurePartition)

/-- `run`: the secure and the insecure partition after it. -/
def run (secure insecure : Partition F G) (opts : List Optimization) :
    Option (Partition F G × Partition F G) :=
  (opts.foldlM (runOptimization env)
    { securePartition := secure, insecurePartition := insecure }).map (apply env)

end Model

/-! ## What the optimisations collect -/

/-- The functions that `apply` of an optimisation object moves. -/
def PartitionOptimization.movedFunctions [DecidableEq F] :
    PartitionOptimization F G → Finset F
  | .functionsMoveTo _ moved => moved
  | .ilp moved => moved.toFinset
  | .globalsMoveTo _ _ | .duplicateFunctions _ | .kernighanLin | .staticAnalysis => ∅

/-- The functions that some optimisation can move without their being related ones. -/
def movable [DecidableEq F] (callgraph : CallGraph F R) (secure insecure : Partition F G) :
    Finset F :=
  secure.outInterface ∪ insecure.outInterface ∪
    (callgraph.functionNodes.map (·.getFunction)).toFinset

/-- What the optimisations need to run: the partitions are disjoint, the insecure functions have
call graph nodes, and the defined functions of the out-interfaces have graphs. -/
structure Ready (env : Environment F G V N R) [DecidableEq F] (secure insecure : Partition F G) :
    Prop where
  disjoint : Disjoint secure.partition insecure.partition
  node : ∀ f ∈ insecure.partition, env.callgraph.hasFunctionNode f = true
  secure_out : ∀ f ∈ secure.outInterface, env.module.isDeclaration f = false →
    env.pdg.hasFunctionPDG f = true
  insecure_out : ∀ f ∈ insecure.outInterface, env.module.isDeclaration f = false →
    env.pdg.hasFunctionPDG f = true

/-- The state after running some optimisations: only insecure functions have changed sides. -/
structure Collected [DecidableEq F] (callgraph : CallGraph F R) (secure insecure : Partition F G)
    (s : State F G) : Prop where
  secure_sub : secure.partition ⊆ s.securePartition.partition
  union : s.securePartition.partition ∪ s.insecurePartition.partition =
    secure.partition ∪ insecure.partition
  insecure_sub : s.insecurePartition.partition ⊆ insecure.partition
  disjoint : Disjoint s.securePartition.partition s.insecurePartition.partition
  related : s.securePartition.relatedFunctions.keys ⊆ secure.relatedFunctions.keys
  secure_out : s.securePartition.outInterface = secure.outInterface
  insecure_out : s.insecurePartition.outInterface = insecure.outInterface
  moved : ∀ opt ∈ s.optimizations, opt.movedFunctions ⊆ movable callgraph secure insecure

/-- All the optimisations that there are, save DUPLICATE_FUNCTIONS. -/
def Supported (opt : Optimization) : Prop := opt ≠ .duplicateFunctions ∧ opt ≠ .optNum

instance : DecidablePred Supported := fun _ => inferInstanceAs (Decidable (_ ∧ _))

section Collect

variable [DecidableEq F] [DecidableEq G] {callgraph : CallGraph F R}
  {secure insecure : Partition F G} {s : State F G}

omit [DecidableEq G] in
theorem Collected.push (h : Collected callgraph secure insecure s)
    (opt : PartitionOptimization F G)
    (hopt : opt.movedFunctions ⊆ movable callgraph secure insecure) :
    Collected callgraph secure insecure (s.push opt) :=
  { h with
    moved := fun o ho => by
      rcases List.mem_append.1 ho with ho | ho
      · exact h.moved o ho
      · rw [List.mem_singleton.1 ho]
        exact hopt }

omit [DecidableEq G] in
theorem Collected.outInterface_subset (h : Collected callgraph secure insecure s) (side : Side) :
    (s.getPartition side).outInterface ⊆ movable callgraph secure insecure := by
  intro f hf
  unfold movable
  cases side with
  | secure =>
    have hf : f ∈ secure.outInterface := h.secure_out ▸ hf
    simp [hf]
  | insecure =>
    have hf : f ∈ insecure.outInterface := h.insecure_out ▸ hf
    simp [hf]

variable [Zero R] [One R] [Add R] [Neg R] [Sub R] [Mul R] [SMul ℤ R] [DecidableEq R]

omit [DecidableEq G] [SMul ℤ R] in
theorem movedFunctions_ilp_subset
    (solve : LinearProgram.Program (ILPOptimization.Var F) R →
      Option (ILPOptimization.Var F → R)) (M : Module F G V) (P : Partition F G) :
    (ILPOptimization.run solve callgraph M P).toFinset ⊆ movable callgraph secure insecure := by
  intro f hf
  have hf : f ∈ ILPOptimization.run solve callgraph M P := List.mem_toFinset.1 hf
  unfold ILPOptimization.run at hf
  split at hf
  · cases hf
  · unfold ILPOptimization.movedFunctions at hf
    obtain ⟨node, hnode, rfl⟩ := List.mem_map.1 hf
    refine Finset.mem_union_right _ (List.mem_toFinset.2 (List.mem_map_of_mem ?_))
    exact (List.mem_filter.1 hnode).1

variable [LT R] [DecidableLT R] [LE R] [DecidableLE R] {env : Environment F G V N R}

/-- **One optimisation runs, and leaves the partitions as `Collected` says.** -/
theorem exists_runOptimizer (hready : Ready env secure insecure) {opt : Optimization}
    (hopt : Supported opt) (side : Side) (h : Collected env.callgraph secure insecure s) :
    ∃ s', runOptimizer env opt side s = some s' ∧ Collected env.callgraph secure insecure s' := by
  cases opt with
  | functionsMoveTo =>
    have hout : ∀ f ∈ (s.getPartition side).outInterface, env.module.isDeclaration f = false →
        env.pdg.hasFunctionPDG f = true := by
      cases side with
      | secure => exact fun f hf => hready.secure_out f (h.secure_out ▸ hf)
      | insecure => exact fun f hf => hready.insecure_out f (h.insecure_out ▸ hf)
    obtain ⟨moved, hrun, hmoved⟩ :=
      FunctionsMoveToPartitionOptimization.exists_run env.loopInfoGetter hout
    refine ⟨_, by rw [runOptimizer, hrun, Option.map_some], ?_⟩
    exact h.push _ (hmoved.trans (h.outInterface_subset side))
  | globalsMoveTo => exact ⟨_, rfl, h.push _ (Finset.empty_subset _)⟩
  | duplicateFunctions => exact absurd rfl hopt.1
  | kernighanLin =>
    obtain ⟨kept, P, hcand, hrelated, hpart, hout, hrun⟩ := KLOptimizer.exists_run env.order
      env.module h.disjoint fun f hf => hready.node f (h.insecure_sub hf)
    have hkept : kept ⊆ s.insecurePartition.partition := fun f hf =>
      (KLOptimizer.mem_collectPassCandidates.1 (hcand f hf)).1
    refine ⟨_, by rw [runOptimizer, hrun, Option.map_some], ?_⟩
    exact
      { secure_sub := by
          dsimp only
          rw [hpart]
          exact h.secure_sub.trans Finset.subset_union_left
        union := by
          dsimp only
          rw [hpart, Finset.union_assoc, Finset.union_sdiff_of_subset hkept, h.union]
        insecure_sub := Finset.sdiff_subset.trans h.insecure_sub
        disjoint := by
          dsimp only
          rw [hpart]
          exact Finset.disjoint_union_left.2
            ⟨h.disjoint.mono_right Finset.sdiff_subset, Finset.disjoint_sdiff⟩
        related := hrelated.subset.trans (Finset.sdiff_subset.trans h.related)
        secure_out := hout.trans h.secure_out
        insecure_out := h.insecure_out
        moved := (h.push .kernighanLin (Finset.empty_subset _)).moved }
  | staticAnalysis => exact ⟨_, rfl, h.push _ (Finset.empty_subset _)⟩
  | ilp => exact ⟨_, rfl, h.push _ (movedFunctions_ilp_subset env.solve env.module _)⟩
  | optNum => exact absurd rfl hopt.2

theorem exists_runOptimization (hready : Ready env secure insecure) {opt : Optimization}
    (hopt : Supported opt) (h : Collected env.callgraph secure insecure s) :
    ∃ s', runOptimization env s opt = some s' ∧ Collected env.callgraph secure insecure s' := by
  obtain ⟨s₁, hrun, h₁⟩ := exists_runOptimizer hready hopt .secure h
  unfold runOptimization
  rw [hrun, Option.bind_some]
  split
  · exact exists_runOptimizer hready hopt .insecure h₁
  · exact exists_runOptimizer hready hopt .insecure h₁
  · exact ⟨s₁, rfl, h₁⟩

theorem exists_runOptimizations (hready : Ready env secure insecure) {opts : List Optimization}
    (hopts : ∀ opt ∈ opts, Supported opt) (h : Collected env.callgraph secure insecure s) :
    ∃ s', opts.foldlM (runOptimization env) s = some s' ∧
      Collected env.callgraph secure insecure s' := by
  induction opts generalizing s with
  | nil => exact ⟨s, rfl, h⟩
  | cons opt opts ih =>
    obtain ⟨s₁, hrun, h₁⟩ := exists_runOptimization hready (hopts opt List.mem_cons_self) h
    obtain ⟨s', hs', h'⟩ := ih (fun o ho => hopts o (List.mem_cons_of_mem opt ho)) h₁
    exact ⟨s', by rw [List.foldlM_cons, hrun]; exact hs', h'⟩

end Collect

/-! ## What applying them does -/

section Apply

variable [DecidableEq F] {s : State F G}

theorem partition_apply_ilp (moved : List F) (secure insecure : Partition F G) :
    (ILPOptimization.apply moved secure insecure).1.partition =
        secure.partition ∪ moved.toFinset ∧
      (ILPOptimization.apply moved secure insecure).2.partition =
        insecure.partition \ moved.toFinset := by
  unfold ILPOptimization.apply
  induction moved generalizing secure insecure with
  | nil => simp
  | cons f moved ih =>
    obtain ⟨hsecure, hinsecure⟩ := ih ((secure.addToPartition f).removeRelatedFunction f)
      (insecure.removeFromPartition f)
    rw [List.foldl_cons, hsecure, hinsecure, List.toFinset_cons]
    constructor
    · simp [Finset.insert_union, Finset.union_insert]
    · simp [Finset.sdiff_insert, Finset.erase_sdiff_comm]

theorem keys_apply_ilp (moved : List F) (secure insecure : Partition F G) :
    (ILPOptimization.apply moved secure insecure).1.relatedFunctions.keys =
      secure.relatedFunctions.keys \ moved.toFinset := by
  unfold ILPOptimization.apply
  induction moved generalizing secure insecure with
  | nil => simp
  | cons f moved ih =>
    rw [List.foldl_cons, ih]
    dsimp only
    rw [Partition.keys_removeRelatedFunction, List.toFinset_cons, Finset.sdiff_insert,
      Finset.erase_sdiff_comm]
    rfl

/-- The state while the optimisations are applied: nothing secure becomes insecure, and nothing gets
lost. -/
structure Applied (secure insecure : Finset F) (s : State F G) : Prop where
  secure_sub : secure ⊆ s.securePartition.partition
  cover : secure ∪ insecure ⊆ s.securePartition.partition ∪ s.insecurePartition.partition

/-- All function sets of the state are subsets of `A`. -/
structure Within (A : Finset F) (s : State F G) : Prop where
  secure : s.securePartition.partition ⊆ A
  insecure : s.insecurePartition.partition ⊆ A
  related : s.securePartition.relatedFunctions.keys ⊆ A

theorem Applied.step {secure insecure : Finset F} (h : Applied secure insecure s)
    (opt : PartitionOptimization F G) : Applied secure insecure (applyOptimization s opt) := by
  cases opt with
  | functionsMoveTo side moved =>
    cases side with
    | secure =>
      refine ⟨h.secure_sub.trans Finset.subset_union_left, h.cover.trans ?_⟩
      exact Finset.union_subset_union_left Finset.subset_union_left
    | insecure =>
      refine ⟨h.secure_sub, h.cover.trans ?_⟩
      exact Finset.union_subset_union_right Finset.subset_union_left
  | globalsMoveTo side moved => cases side <;> exact ⟨h.secure_sub, h.cover⟩
  | duplicateFunctions _ => exact h
  | kernighanLin => exact h
  | staticAnalysis =>
    refine ⟨h.secure_sub.trans Finset.subset_union_left, h.cover.trans ?_⟩
    exact Finset.union_subset_union_left Finset.subset_union_left
  | ilp moved =>
    obtain ⟨hsecure, hinsecure⟩ := partition_apply_ilp moved s.securePartition s.insecurePartition
    constructor
    · dsimp only [applyOptimization]
      rw [hsecure]
      exact h.secure_sub.trans Finset.subset_union_left
    · dsimp only [applyOptimization]
      rw [hsecure, hinsecure, Finset.union_assoc, Finset.union_sdiff_self_eq_union,
        Finset.union_left_comm]
      exact h.cover.trans Finset.subset_union_right

theorem Within.step {A : Finset F} (h : Within A s) {opt : PartitionOptimization F G}
    (hopt : opt.movedFunctions ⊆ A) : Within A (applyOptimization s opt) := by
  cases opt with
  | functionsMoveTo side moved =>
    cases side with
    | secure => exact ⟨Finset.union_subset h.secure hopt, h.insecure, h.related⟩
    | insecure => exact ⟨h.secure, Finset.union_subset h.insecure hopt, h.related⟩
  | globalsMoveTo side moved => cases side <;> exact ⟨h.secure, h.insecure, h.related⟩
  | duplicateFunctions _ => exact h
  | kernighanLin => exact h
  | staticAnalysis =>
    refine ⟨Finset.union_subset h.secure h.related, h.insecure, ?_⟩
    exact Finset.empty_subset A
  | ilp moved =>
    obtain ⟨hsecure, hinsecure⟩ := partition_apply_ilp moved s.securePartition s.insecurePartition
    refine ⟨?_, ?_,
      (keys_apply_ilp moved _ _).subset.trans (Finset.sdiff_subset.trans h.related)⟩
    · dsimp only [applyOptimization]
      rw [hsecure]
      exact Finset.union_subset h.secure hopt
    · dsimp only [applyOptimization]
      rw [hinsecure]
      exact Finset.sdiff_subset.trans h.insecure

theorem Applied.foldl {secure insecure : Finset F} (opts : List (PartitionOptimization F G))
    (h : Applied secure insecure s) : Applied secure insecure (opts.foldl applyOptimization s) := by
  induction opts generalizing s with
  | nil => exact h
  | cons opt opts ih => exact ih (h.step opt)

theorem Within.foldl {A : Finset F} {opts : List (PartitionOptimization F G)}
    (hopts : ∀ opt ∈ opts, opt.movedFunctions ⊆ A) (h : Within A s) :
    Within A (opts.foldl applyOptimization s) := by
  induction opts generalizing s with
  | nil => exact h
  | cons opt opts ih =>
    exact ih (fun o ho => hopts o (List.mem_cons_of_mem opt ho))
      (h.step (hopts opt List.mem_cons_self))

/-- What the loop over the secure functions does. -/
theorem purge_eq (env : Environment F G V N R) (s : State F G) :
    (purge env s).securePartition.partition = s.securePartition.partition ∧
      (purge env s).insecurePartition.partition =
        s.insecurePartition.partition \ s.securePartition.partition ∧
      (purge env s).securePartition.relatedFunctions.keys =
        s.securePartition.relatedFunctions.keys \ s.securePartition.partition := by
  have hfold : ∀ (fs : List F) (s : State F G), fs.foldl (fun s f =>
      { s with
        insecurePartition := s.insecurePartition.removeFromPartition f
        securePartition := s.securePartition.removeRelatedFunction f }) s =
      { s with
        insecurePartition := fs.foldl (fun P f => P.removeFromPartition f) s.insecurePartition
        securePartition := fs.foldl (fun P f => P.removeRelatedFunction f) s.securePartition } := by
    intro fs
    induction fs with
    | nil => intro s; rfl
    | cons f fs ih => intro s; rw [List.foldl_cons, ih]; rfl
  have hlist : (env.order.list s.securePartition.partition).toFinset =
      s.securePartition.partition := by
    ext f
    rw [List.mem_toFinset, env.order.mem]
  unfold purge
  rw [hfold]
  dsimp only
  rw [Partition.foldl_removeFromPartition, Partition.keys_foldl_removeRelatedFunction, hlist]
  exact ⟨Partition.partition_foldl_removeRelatedFunction _ _, rfl, rfl⟩

theorem setInterfaces_eq (env : Environment F G V N R) (P : Partition F G) :
    (setInterfaces env P).partition = P.partition ∧
      (setInterfaces env P).relatedFunctions = P.relatedFunctions ∧
      Interfaced env.module env.pdg (setInterfaces env P) :=
  ⟨rfl, rfl, rfl, rfl⟩

/-- What `apply` returns, in terms of the state after the last optimisation was applied. -/
structure Purged (env : Environment F G V N R) (s : State F G) (secure insecure : Partition F G) :
    Prop where
  secure_eq : secure.partition = s.securePartition.partition
  insecure_eq : insecure.partition = s.insecurePartition.partition \ s.securePartition.partition
  related_eq : secure.relatedFunctions.keys =
    s.securePartition.relatedFunctions.keys \ s.securePartition.partition
  secure_interfaced : Interfaced env.module env.pdg secure
  insecure_interfaced : Interfaced env.module env.pdg insecure

theorem purged_apply (env : Environment F G V N R) (s : State F G) :
    Purged env (s.optimizations.foldl applyOptimization s) (apply env s).1 (apply env s).2 := by
  obtain ⟨hsecure, hinsecure, hrelated⟩ :=
    purge_eq env (s.optimizations.foldl applyOptimization s)
  obtain ⟨hspart, hsrelated, hsinterfaced⟩ := setInterfaces_eq env
    (purge env (s.optimizations.foldl applyOptimization s)).securePartition
  obtain ⟨hipart, -, hiinterfaced⟩ := setInterfaces_eq env
    (purge env (s.optimizations.foldl applyOptimization s)).insecurePartition
  exact ⟨hspart.trans hsecure, hipart.trans hinsecure, (congrArg Finmap.keys hsrelated).trans hrelated,
    hsinterfaced, hiinterfaced⟩

end Apply

/-! ## A whole run -/

section Run

variable [DecidableEq F] {env : Environment F G V N R} {secure insecure : Partition F G}

theorem applied_of_collected {s : State F G} (h : Collected env.callgraph secure insecure s) :
    Applied secure.partition insecure.partition (s.optimizations.foldl applyOptimization s) :=
  Applied.foldl _ ⟨h.secure_sub, h.union.symm.subset⟩

theorem collected_start (hready : Ready env secure insecure) :
    Collected env.callgraph secure insecure
      { securePartition := secure, insecurePartition := insecure } where
  secure_sub := Finset.Subset.refl _
  union := rfl
  insecure_sub := Finset.Subset.refl _
  disjoint := hready.disjoint
  related := Finset.Subset.refl _
  secure_out := rfl
  insecure_out := rfl
  moved opt hopt := by cases hopt

/-- The partitions that the partitioner returns are ready to be optimised. -/
theorem ready_of_partition [DecidableEq G] [DecidableEq V] {fuel : Nat} {annotations : Annotations F}
    (hpartition : Partitioner.partition env.module env.pdg fuel annotations =
      some (secure, insecure))
    (hpdg : env.pdg.FunctionsIn env.module)
    (hgraph : ∀ f ∈ env.module.functions, env.module.isDeclaration f = false →
      env.pdg.hasFunctionPDG f = true)
    (hnode : ∀ f ∈ env.module.functions, env.callgraph.hasFunctionNode f = true) :
    Ready env secure insecure := by
  have hparts := Partitioner.partitioned hpartition
  have hout : ∀ P : Partition F G, Interfaced env.module env.pdg P →
      ∀ f ∈ P.outInterface, env.module.isDeclaration f = false →
        env.pdg.hasFunctionPDG f = true := by
    intro P hP f hf
    rw [hP.outInterface, mem_computeOutInterface] at hf
    obtain ⟨-, g, -, -, hcalled⟩ := hf
    obtain ⟨v, node, -, -, edge, -, -, hfunction⟩ := (mem_calledFunctions _ _ _ _).1 hcalled
    exact hgraph f (hpdg.function _ f hfunction)
  refine ⟨?_, fun f hf => hnode f ((hparts.mem_insecure f).1 hf).1,
    hout secure hparts.secure_interfaced, hout insecure hparts.insecure_interfaced⟩
  exact Finset.disjoint_left.2 fun f hs hi => ((hparts.mem_insecure f).1 hi).2 hs

/-- Only functions of the module get into the partitions. -/
theorem within_of_collected {s : State F G} (hs : Collected env.callgraph secure insecure s)
    (hsites : env.pdg.CallSitesExact env.module)
    (hnode : ∀ f, env.callgraph.hasFunctionNode f = true ↔ f ∈ env.module.functions)
    (hcompl : Complementary env.module secure.partition insecure.partition)
    (hsecure : Interfaced env.module env.pdg secure)
    (hinsecure : Interfaced env.module env.pdg insecure) (hrelated : RelatedIn env.module secure) :
    Within env.module.functions.toFinset (s.optimizations.foldl applyOptimization s) := by
  have hout : ∀ P : Partition F G, Interfaced env.module env.pdg P →
      (∀ f ∈ P.partition, f ∈ env.module.functions) →
      P.outInterface ⊆ env.module.functions.toFinset := by
    intro P hP hmem f hf
    rw [hP.outInterface, mem_computeOutInterface] at hf
    obtain ⟨-, g, hg, -, hcalled⟩ := hf
    exact List.mem_toFinset.2 (hsites.callee_mem g (hmem g hg) f hcalled)
  have hmovable : movable env.callgraph secure insecure ⊆ env.module.functions.toFinset := by
    refine Finset.union_subset (Finset.union_subset (hout _ hsecure hcompl.left_mem)
      (hout _ hinsecure hcompl.right_mem)) fun f hf => ?_
    obtain ⟨node, hmem, rfl⟩ := List.mem_map.1 (List.mem_toFinset.1 hf)
    exact List.mem_toFinset.2 ((hnode _).1 (CallGraph.hasFunctionNode_iff.2 ⟨node, hmem, rfl⟩))
  have hunion : ∀ f ∈ s.securePartition.partition ∪ s.insecurePartition.partition,
      f ∈ env.module.functions := fun f hf => by
    rw [hs.union] at hf
    exact (Finset.mem_union.1 hf).elim (hcompl.left_mem f) (hcompl.right_mem f)
  refine Within.foldl (fun opt hopt => (hs.moved opt hopt).trans hmovable)
    ⟨fun f hf => ?_, fun f hf => ?_, fun f hf => ?_⟩
  · exact List.mem_toFinset.2 (hunion f (Finset.mem_union_left _ hf))
  · exact List.mem_toFinset.2 (hunion f (Finset.mem_union_right _ hf))
  · exact List.mem_toFinset.2 (hrelated f (Finmap.mem_keys.1 (hs.related hf)))

/-- The partitions that `apply` returns are complementary. -/
theorem Purged.complementary {s : State F G} {S I : Partition F G} (h : Purged env s S I)
    (happlied : Applied secure.partition insecure.partition s)
    (hwithin : Within env.module.functions.toFinset s)
    (hcompl : Complementary env.module secure.partition insecure.partition) :
    Complementary env.module S.partition I.partition := by
  refine ⟨fun f hf => ?_, fun f hf => ?_, fun f hf => ?_, fun f hsec hins => ?_⟩
  · rw [h.secure_eq] at hf
    exact List.mem_toFinset.1 (hwithin.secure hf)
  · rw [h.insecure_eq] at hf
    exact List.mem_toFinset.1 (hwithin.insecure (Finset.mem_sdiff.1 hf).1)
  · have hcover := Finset.mem_union.1
      (happlied.cover (Finset.mem_union.2 (hcompl.cover f hf)))
    rw [h.secure_eq, h.insecure_eq, Finset.mem_sdiff]
    tauto
  · rw [h.secure_eq] at hsec
    rw [h.insecure_eq] at hins
    exact (Finset.mem_sdiff.1 hins).2 hsec

variable [DecidableEq G] [Zero R] [One R] [Add R] [Neg R] [Sub R] [Mul R] [SMul ℤ R]
  [DecidableEq R] [LT R] [DecidableLT R] [LE R] [DecidableLE R] {opts : List Optimization}

/-- The run phase, followed by the apply phase. -/
theorem exists_run (hready : Ready env secure insecure) (hopts : ∀ opt ∈ opts, Supported opt) :
    ∃ s S I, Collected env.callgraph secure insecure s ∧
      Purged env (s.optimizations.foldl applyOptimization s) S I ∧
      run env secure insecure opts = some (S, I) := by
  obtain ⟨s, hrun, hs⟩ := exists_runOptimizations hready hopts (collected_start hready)
  refine ⟨s, _, _, hs, purged_apply env s, ?_⟩
  unfold run
  rw [hrun, Option.map_some]

end Run

/-! ## Mediation -/

/-- The in-interfaces hold exactly the functions with a caller on the other side, and the
out-interfaces are the in-interfaces of the other side. -/
structure Mediated (pdg : PDG F G V N) (secure insecure : Partition F G) : Prop where
  secure_in : ∀ g ∈ secure.partition, g ∈ secure.inInterface ↔
    ∃ callSite ∈ pdg.getCallSites g, callSite.getCaller ∈ insecure.partition
  insecure_in : ∀ g ∈ insecure.partition, g ∈ insecure.inInterface ↔
    ∃ callSite ∈ pdg.getCallSites g, callSite.getCaller ∈ secure.partition
  secure_out : secure.outInterface = insecure.inInterface
  insecure_out : insecure.outInterface = secure.inInterface

theorem mediated_of_complementary [DecidableEq F] {M : Module F G V} {pdg : PDG F G V N}
    (hpdg : pdg.CallSitesExact M) {secure insecure : Partition F G}
    (h : Complementary M secure.partition insecure.partition)
    (hsecure : Interfaced M pdg secure) (hinsecure : Interfaced M pdg insecure) :
    Mediated pdg secure insecure := by
  constructor
  · intro g hg
    rw [hsecure.inInterface]
    exact mem_computeInInterface_iff hpdg h hg
  · intro g hg
    rw [hinsecure.inInterface]
    exact mem_computeInInterface_iff hpdg h.symm hg
  · rw [hsecure.outInterface, hinsecure.inInterface]
    exact computeOutInterface_eq hpdg h
  · rw [hsecure.inInterface, hinsecure.outInterface]
    exact computeOutInterface_eq hpdg h.symm

/-! ## Top theorems -/

section Top

variable [DecidableEq F] [DecidableEq G] [DecidableEq V] [Zero R] [One R] [Add R] [Neg R] [Sub R]
  [Mul R] [SMul ℤ R] [DecidableEq R] [LT R] [DecidableLT R] [LE R] [DecidableLE R]

/-- **The optimiser loses no function and leaks none.**  After partitioning, and any sequence of
optimisations, each function of the module is in exactly one partition, every function that was
secure still is, and no secure function is still a related one. -/
theorem run_splits_module (env : Environment F G V N R)
    (hpdg : env.pdg.FunctionsIn env.module)
    (hgraph : ∀ f ∈ env.module.functions, env.module.isDeclaration f = false →
      env.pdg.hasFunctionPDG f = true)
    (hnode : ∀ f ∈ env.module.functions, env.callgraph.hasFunctionNode f = true)
    (fuel : Nat) (annotations : Annotations F) (secure insecure : Partition F G)
    (hpartition : Partitioner.partition env.module env.pdg fuel annotations =
      some (secure, insecure))
    (opts : List Optimization) (hopts : ∀ opt ∈ opts, Supported opt) :
    ∃ S I, run env secure insecure opts = some (S, I) ∧
      (∀ f ∈ env.module.functions, (f ∈ S.partition ∧ f ∉ I.partition) ∨
        (f ∈ I.partition ∧ f ∉ S.partition)) ∧
      (∀ f ∈ secure.partition, f ∈ S.partition) ∧
      (∀ annot ∈ annotations, annot.getFunction ∈ S.partition) ∧
      ∀ f ∈ S.partition, f ∉ S.relatedFunctions := by
  have hparts := Partitioner.partitioned hpartition
  obtain ⟨s, S, I, hs, hpurged, hrun⟩ :=
    exists_run (ready_of_partition hpartition hpdg hgraph hnode) hopts
  have happlied := applied_of_collected hs
  have hkeep : ∀ f ∈ secure.partition, f ∈ S.partition := fun f hf => by
    rw [hpurged.secure_eq]
    exact happlied.secure_sub hf
  refine ⟨S, I, hrun, fun f hf => ?_, hkeep, fun a ha => ?_, fun f hf hrelated => ?_⟩
  · have hcover : f ∈ secure.partition ∪ insecure.partition := by
      by_cases hsec : f ∈ secure.partition
      · exact Finset.mem_union_left _ hsec
      · exact Finset.mem_union_right _ ((hparts.mem_insecure f).2 ⟨hf, hsec⟩)
    have hmem := Finset.mem_union.1 (happlied.cover hcover)
    rw [hpurged.secure_eq, hpurged.insecure_eq, Finset.mem_sdiff]
    tauto
  · exact hkeep _ ((hparts.mem_secure _).2 ⟨a, ha, rfl⟩)
  · have hkey := Finmap.mem_keys.2 hrelated
    rw [hpurged.related_eq, Finset.mem_sdiff] at hkey
    exact hkey.2 (hpurged.secure_eq ▸ hf)

/-- **Complete mediation and duality of the interfaces**, after partitioning and again after any
sequence of optimisations. -/
theorem interfaces_mediate (env : Environment F G V N R)
    (hsites : env.pdg.CallSitesExact env.module) (hpdg : env.pdg.FunctionsIn env.module)
    (hnode : ∀ f, env.callgraph.hasFunctionNode f = true ↔ f ∈ env.module.functions)
    (fuel : Nat) (annotations : Annotations F)
    (hannotations : ∀ annot ∈ annotations, annot.getFunction ∈ env.module.functions)
    (secure insecure : Partition F G)
    (hpartition : Partitioner.partition env.module env.pdg fuel annotations =
      some (secure, insecure))
    (opts : List Optimization) (hopts : ∀ opt ∈ opts, Supported opt) :
    Mediated env.pdg secure insecure ∧
      ∃ S I, run env secure insecure opts = some (S, I) ∧ Mediated env.pdg S I := by
  have hparts := Partitioner.partitioned hpartition
  have hcompl := hparts.complementary hannotations
  refine ⟨mediated_of_complementary hsites hcompl hparts.secure_interfaced
    hparts.insecure_interfaced, ?_⟩
  obtain ⟨s, S, I, hs, hpurged, hrun⟩ := exists_run (ready_of_partition hpartition hpdg
    (fun f hf _ => hsites.hasFunctionPDG f hf) (fun f hf => (hnode f).2 hf)) hopts
  have hwithin := within_of_collected hs hsites hnode hcompl hparts.secure_interfaced
    hparts.insecure_interfaced (Partitioner.relatedIn_partition hpdg hpartition)
  have hcompl' := hpurged.complementary (applied_of_collected hs) hwithin hcompl
  exact ⟨S, I, hrun, mediated_of_complementary hsites hcompl' hpurged.secure_interfaced
    hpurged.insecure_interfaced⟩

end Top

/-! ## An example: `main` calls `work`, which calls `log` -/

inductive ChainFunction
  | main
  | work
  | log
deriving DecidableEq

instance : Fintype ChainFunction where
  elems := {.main, .work, .log}
  complete f := by cases f <;> decide

/-- The calls of the example, under the names of their callees. -/
inductive ChainCall
  | work
  | log
deriving DecidableEq

instance : Fintype ChainCall where
  elems := {.work, .log}
  complete c := by cases c <;> decide

def chainModule : Module ChainFunction Empty ChainCall where
  functions := [.main, .work, .log]
  globals := []
  getName := fun
    | .main => "main"
    | .work => "work"
    | .log => "log"
  isDeclaration := fun _ => false
  isIntrinsic := fun _ => false
  argTypes := fun _ => []
  getReturnType := fun _ => .void
  functionSize := fun _ => 1
  returnInsts := fun _ => []
  valueClass := fun _ => .callInst

inductive ChainNode
  | function (f : ChainFunction)
  | call (c : ChainCall)
deriving DecidableEq

instance : Fintype ChainNode where
  elems := {.function .main, .function .work, .function .log, .call .work, .call .log}
  complete n := by
    cases n with
    | function f => cases f <;> decide
    | call c => cases c <;> decide

def chainPDG : PDG ChainFunction Empty ChainCall ChainNode where
  kind := fun
    | .function f => .function f
    | .call .work => .instruction .main
    | .call .log => .instruction .work
  isLLVMNode := fun _ => true
  getNodeValue := fun
    | .function _ => none
    | .call c => some c
  getParent := fun
    | .function _ => none
    | .call .work => some .main
    | .call .log => some .work
  isPointerArgOperand := fun _ => false
  outEdges := fun
    | .function _ => []
    | .call .work =>
      [{ getSource := .call .work, getDestination := .function .work, isControlEdge := true }]
    | .call .log =>
      [{ getSource := .call .log, getDestination := .function .log, isControlEdge := true }]
  inEdges := fun _ => []
  hasFunctionPDG := fun _ => true
  getCallSites := fun
    | .main => []
    | .work => [{ getInstruction := .work, getCaller := .main, getParent := .work }]
    | .log => [{ getInstruction := .log, getCaller := .work, getParent := .log }]
  llvmNodes := fun
    | .main => [(.work, .call .work)]
    | .work => [(.log, .call .log)]
    | .log => []
  getNode := fun _ _ => none
  getFormalArgNode := fun _ _ => none
  getGlobalVariableNode := fun _ => none

/-- The solver keeps `main` where it is and moves `log`. -/
def chainEnvironment : Environment ChainFunction Empty ChainCall ChainNode ℤ where
  module := chainModule
  pdg := chainPDG
  callgraph :=
    { functionNodes :=
        [{ getFunction := .main, outEdges := [callEdge .main .work 1], getWeight := Weight.new },
          { getFunction := .work, inEdges := [callEdge .main .work 1],
            outEdges := [callEdge .work .log 1], getWeight := Weight.new },
          { getFunction := .log, inEdges := [callEdge .work .log 1], getWeight := Weight.new }] }
  loopInfoGetter := fun _ => none
  order :=
    { list := fun s => [.main, .work, .log].filter (· ∈ s)
      nodup := fun s => List.Nodup.filter _ (by decide)
      mem := fun s f => by cases f <;> simp }
  solve := fun _ => some fun
    | .node .main => 0
    | .node _ => 1
    | .edge _ _ => 0

def workAnnotated : Annotation ChainFunction where
  getAnnotation := "secure"
  getFunction := .work

def allOptimizations : List Optimization :=
  [.functionsMoveTo, .globalsMoveTo, .kernighanLin, .staticAnalysis, .ilp]

theorem chain_functionsIn : chainPDG.FunctionsIn chainModule := by
  have hmem : ∀ f, f ∈ chainModule.functions := by decide
  exact ⟨fun _ f _ => hmem f, fun _ f _ => hmem f⟩

theorem chain_partition : ∃ secure insecure,
    Partitioner.partition chainModule chainPDG 1 [workAnnotated] = some (secure, insecure) := by
  have hsome :
      (Partitioner.partition chainModule chainPDG 1 [workAnnotated]).isSome = true := by decide
  obtain ⟨⟨secure, insecure⟩, h⟩ := Option.isSome_iff_exists.1 hsome
  exact ⟨secure, insecure, h⟩

theorem chain_splits_module : ∃ secure insecure S I,
    Partitioner.partition chainModule chainPDG 1 [workAnnotated] = some (secure, insecure) ∧
      run chainEnvironment secure insecure allOptimizations = some (S, I) ∧ .work ∈ S.partition := by
  obtain ⟨secure, insecure, h⟩ := chain_partition
  obtain ⟨S, I, hrun, -, -, hannotated, -⟩ := run_splits_module chainEnvironment
    chain_functionsIn (fun _ _ _ => rfl) (by decide) 1 [workAnnotated] secure insecure h
    allOptimizations (by decide)
  exact ⟨secure, insecure, S, I, h, hrun, hannotated _ List.mem_cons_self⟩

theorem chain_callSitesExact : chainPDG.CallSitesExact chainModule where
  hasFunctionPDG _ _ := rfl
  caller_mem := by decide
  callee_mem := by decide
  callSite_iff := by
    have hcalls : ∀ f g v,
        (∃ callSite ∈ chainPDG.getCallSites g,
          callSite.getInstruction = v ∧ callSite.getCaller = f) ↔
        ∃ node, (v, node) ∈ chainPDG.llvmNodes f ∧
          ∃ edge ∈ chainPDG.outEdges node, edge.isControlEdge = true ∧
            chainPDG.functionOf edge.getDestination = some g := by
      decide
    intro f _ g _ v
    refine (hcalls f g v).trans (exists_congr fun node => and_congr_right fun _ => ?_)
    exact ⟨fun hedge => ⟨rfl, hedge⟩, And.right⟩

theorem chain_mediates : ∃ secure insecure S I,
    Partitioner.partition chainModule chainPDG 1 [workAnnotated] = some (secure, insecure) ∧
      Mediated chainPDG secure insecure ∧
      run chainEnvironment secure insecure allOptimizations = some (S, I) ∧
      Mediated chainPDG S I := by
  obtain ⟨secure, insecure, h⟩ := chain_partition
  obtain ⟨hbefore, S, I, hrun, hafter⟩ := interfaces_mediate chainEnvironment chain_callSitesExact
    chain_functionsIn (by decide) 1 [workAnnotated] (by decide) secure insecure h
    allOptimizations (by decide)
  exact ⟨secure, insecure, S, I, h, hbefore, hrun, hafter⟩

end PartitionOptimizer

end Vazgen
