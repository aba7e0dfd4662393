import Vazgen.Analysis.Sensitivity
import Vazgen.Lib.JoinFold

/-!
# What the partitioner puts into the two partitions

After `Partitioner.partition` the secure partition holds the annotated functions, the insecure one
the other functions of the module, and both have the interfaces of their function sets
(`Partitioner.partitioned`).  Only defined functions of the module are related to the secure
partition (`Partitioner.relatedIn_partition`, `Partitioner.relatedDefined_partition`).
-/

namespace Vazgen

open Worklist

variable {F G V N : Type}

/-! ## The function sets of the walks -/

section Walks

variable [DecidableEq F] [DecidableEq V] {M : Module F G V} {pdg : PDG F G V N} {annotated : F}
  {annot : Annotation F} {fuel : Nat}

theorem partition_traverseForArgument {arg : Nat} {s t : TraverseState F G V N}
    (h : traverseForArgument M pdg fuel annotated arg s = some t) :
    t.partition.partition = s.partition.partition := by
  unfold traverseForArgument at h
  split at h
  · cases h; rfl
  · obtain ⟨u, hu, ht⟩ := Option.bind_eq_some_iff.1 h
    exact (keeps_of_run (queues_backwardLoop pdg) ht).1.trans
      (keeps_of_run (queues_forwardLoop M pdg annotated) hu).1

theorem partition_arguments_subset {P : Partition F G}
    (h : PartitionForArguments.partition M pdg annot fuel = some P) :
    P.partition ⊆ {annot.getFunction} := by
  unfold PartitionForArguments.partition at h
  split at h
  · obtain ⟨t, ht, rfl⟩ := Option.map_eq_some_iff.1 h
    refine foldlM_induct (P := fun s : TraverseState F G V N =>
      s.partition.partition ⊆ {annot.getFunction}) (fun s arg s' _ hs hst => ?_)
      (Finset.Subset.refl _) ht
    split at hst
    · rw [partition_traverseForArgument hst]
      exact hs
    · cases hst
      exact hs
  · cases h
    exact Finset.empty_subset _

theorem partition_returnValue_subset {P : Partition F G}
    (h : PartitionForReturnValue.partition M pdg annot fuel = some P) :
    P.partition ⊆ {annot.getFunction} := by
  unfold PartitionForReturnValue.partition at h
  split at h
  · obtain ⟨t, ht, rfl⟩ := Option.map_eq_some_iff.1 h
    rw [(keeps_of_run (queues_returnLoop pdg) ht).1]
    exact Finset.Subset.refl _
  · cases h
    exact Finset.empty_subset _

end Walks

/-! ## The related functions -/

/-- The graph's function nodes and formal argument nodes are of functions of the module. -/
structure PDG.FunctionsIn (M : Module F G V) (pdg : PDG F G V N) : Prop where
  function : ∀ n f, pdg.functionOf n = some f → f ∈ M.functions
  formalArg : ∀ n f, pdg.kind n = .formalArgument f → f ∈ M.functions

/-- Only functions of the module are related. -/
def RelatedIn (M : Module F G V) (P : Partition F G) : Prop :=
  ∀ f ∈ P.relatedFunctions, f ∈ M.functions

/-- `p` holds of the functions that a walk can relate: defined ones with a node in the graph. -/
structure PDG.Relates (M : Module F G V) (pdg : PDG F G V N) (p : F → Prop) : Prop where
  function : ∀ n f, pdg.functionOf n = some f → M.isDeclaration f = false → p f
  formalArg : ∀ n f, pdg.kind n = .formalArgument f → M.isDeclaration f = false → p f

/-- Every related function satisfies `p`. -/
def RelatedAll (p : F → Prop) (P : Partition F G) : Prop := ∀ f ∈ P.relatedFunctions, p f

section Related

variable [DecidableEq F] {M : Module F G V} {pdg : PDG F G V N} {annotated : F} {p : F → Prop}
  {s : TraverseState F G V N}

omit [DecidableEq F] in
theorem relatedAll_of_empty {P : Partition F G} (h : P.relatedFunctions = ∅) : RelatedAll p P :=
  fun _ hf => absurd (h ▸ hf) Finmap.notMem_empty

theorem relatedAll_addRelatedFunction {f : F} (hf : p f) (hs : RelatedAll p s.partition) :
    RelatedAll p (addRelatedFunction f s).partition := by
  unfold addRelatedFunction
  split
  · exact hs
  · intro g hg
    rcases MinMap.mem_insertNew.1 hg with rfl | hg
    · exact hf
    · exact hs g hg

theorem relatedAll_collectNodesForActualArg (hp : pdg.Relates M p) (n : N)
    (hs : RelatedAll p s.partition) :
    RelatedAll p (collectNodesForActualArg M pdg n s).partition := by
  rw [collectNodesForActualArg_eq]
  split
  · induction outNeighbours pdg n generalizing s with
    | nil => exact hs
    | cons m ms ih =>
      rw [List.foldl_cons]
      refine ih ?_
      unfold collectFormalArg
      split
      · next f hf =>
        split
        · dsimp only
          split
          · exact hs
          · next hdecl =>
            exact relatedAll_addRelatedFunction (s := { s with
              functionLevels := updateFunctionLevel (pdg.getParent n) (some f) s.functionLevels })
              (hp.formalArg m f hf (by simpa using hdecl)) hs
        · exact hs
      · exact hs
  · exact hs

theorem relatedAll_visitNode (hp : pdg.Relates M p) {loop : TraverseLoop F G V N}
    (hexpand : ∀ n s, RelatedAll p s.partition → RelatedAll p (loop.expand n s).partition) (n : N)
    (hs : RelatedAll p s.partition) :
    RelatedAll p (visitNode M pdg loop annotated n s).partition := by
  unfold visitNode
  split
  · next f hf =>
    unfold visitFunction
    split
    · exact hs
    · next hdecl =>
      split
      · exact hs
      · exact relatedAll_addRelatedFunction (hp.function n f hf (by simpa using hdecl)) hs
  · exact hexpand n s hs

variable [DecidableEq V]

/-- A walk relates only functions that satisfy `p`. -/
theorem relatedAll_of_run (hp : pdg.Relates M p) {loop : TraverseLoop F G V N}
    (hexpand : ∀ n s, RelatedAll p s.partition → RelatedAll p (loop.expand n s).partition)
    {fuel : Nat} {t : TraverseState F G V N} (hs : RelatedAll p s.partition)
    (hrun : whileSome (traverseStep M pdg loop annotated) fuel s = some t) :
    RelatedAll p t.partition := by
  refine (whileSome_induct (P := fun s => RelatedAll p s.partition) ?_ fuel s t hs hrun).1
  intro u u' hu _ hst
  obtain ⟨n, rest, -, ⟨-, rfl⟩ | ⟨-, pv, rfl⟩⟩ := traverseStep_cases M pdg loop annotated hst
  · exact hu
  · exact relatedAll_visitNode (s := { u with workingList := rest, processedValues := pv }) hp
      hexpand n hu

omit [DecidableEq V] in
theorem relatedAll_expand_forward (hp : pdg.Relates M p) (n : N) (s : TraverseState F G V N)
    (hs : RelatedAll p s.partition) :
    RelatedAll p ((forwardLoop M pdg annotated).expand n s).partition := by
  simp only [forwardLoop, partition_queueNeighbours]
  have hcollect : ∀ s : TraverseState F G V N,
      (collectStoreOperand M pdg annotated n s).partition = s.partition := by
    intro s
    unfold collectStoreOperand
    split <;> rfl
  rw [hcollect]
  split
  · exact relatedAll_collectNodesForActualArg hp n hs
  · exact hs

theorem relatedAll_arguments (hp : pdg.Relates M p) {annot : Annotation F} {fuel : Nat}
    {P : Partition F G} (h : PartitionForArguments.partition M pdg annot fuel = some P) :
    RelatedAll p P := by
  unfold PartitionForArguments.partition at h
  split at h
  · obtain ⟨t, ht, rfl⟩ := Option.map_eq_some_iff.1 h
    refine foldlM_induct (P := fun s : TraverseState F G V N => RelatedAll p s.partition)
      (fun s arg s' _ hs hst => ?_) (relatedAll_of_empty rfl) ht
    split at hst
    · unfold traverseForArgument at hst
      split at hst
      · cases hst
        exact hs
      · obtain ⟨u, hu, ht⟩ := Option.bind_eq_some_iff.1 hst
        have hforward := relatedAll_of_run hp (relatedAll_expand_forward hp) (by exact hs) hu
        refine relatedAll_of_run hp (fun n s hs => ?_) (by exact hforward) ht
        simpa only [backwardLoop, partition_queueNeighbours] using hs
    · cases hst
      exact hs
  · cases h
    exact relatedAll_of_empty rfl

theorem relatedAll_returnValue (hp : pdg.Relates M p) {annot : Annotation F} {fuel : Nat}
    {P : Partition F G} (h : PartitionForReturnValue.partition M pdg annot fuel = some P) :
    RelatedAll p P := by
  unfold PartitionForReturnValue.partition at h
  split at h
  · obtain ⟨t, ht, rfl⟩ := Option.map_eq_some_iff.1 h
    refine relatedAll_of_run hp (fun n s hs => ?_) (relatedAll_of_empty rfl) ht
    simpa only [returnLoop, partition_queueNeighbours] using hs
  · cases h
    exact relatedAll_of_empty rfl

omit [DecidableEq V] in
theorem relatedAll_addPartition [DecidableEq G] {P Q : Partition F G} (hP : RelatedAll p P)
    (hQ : RelatedAll p Q) : RelatedAll p (P.addPartition Q) := fun f hf =>
  (MinMap.mem_mergeMin.1 hf).elim (hP f) (hQ f)

end Related

/-! ## The globals -/

/-- There is an edge between the node of `g` and a node that stands in `f`. -/
def PDG.UsesGlobal (pdg : PDG F G V N) (f : F) (g : G) : Prop :=
  ∃ users, globalUsers pdg g = some users ∧ some f ∈ users

section Globals

variable [DecidableEq F] [DecidableEq G] {M : Module F G V} {pdg : PDG F G V N}

variable (M pdg) in
theorem partitionGlobals_eq (functions : Finset F) :
    partitionGlobals M pdg functions = JoinFold.joinFold
      (fun g => (globalUsers pdg g).map fun users =>
        if users.any fun user => user.any (decide <| · ∈ functions) then {g} else ∅)
      ∅ M.globals := by
  unfold partitionGlobals JoinFold.joinFold
  congr 1
  funext globals g
  rw [Option.map_map]
  refine congrArg (fun f => (globalUsers pdg g).map f) (funext fun users => ?_)
  rw [Function.comp_apply]
  split
  · exact (Finset.union_singleton g globals).symm
  · exact (Finset.union_empty globals).symm

/-- The globals of a function set are those its functions use. -/
theorem mem_partitionGlobals {functions : Finset F} {globals : Finset G}
    (h : partitionGlobals M pdg functions = some globals) (g : G) :
    g ∈ globals ↔ g ∈ M.globals ∧ ∃ f ∈ functions, pdg.UsesGlobal f g := by
  rw [partitionGlobals_eq] at h
  rw [JoinFold.mem_iff h g]
  constructor
  · rintro (hg | ⟨g', hg', x, hx, hg⟩)
    · simp at hg
    · obtain ⟨users, husers, rfl⟩ := Option.map_eq_some_iff.1 hx
      split at hg
      · next hany =>
        cases Finset.mem_singleton.1 hg
        obtain ⟨user, huser, hany⟩ := List.any_eq_true.1 hany
        obtain ⟨f, rfl, hf⟩ := (Option.any_eq_true _ _).1 hany
        exact ⟨hg', f, of_decide_eq_true hf, users, husers, huser⟩
      · simp at hg
  · rintro ⟨hg, f, hf, users, husers, huser⟩
    refine .inr ⟨g, hg, {g}, ?_, Finset.mem_singleton_self g⟩
    rw [husers, Option.map_some, if_pos]
    exact List.any_eq_true.2 ⟨some f, huser, by simpa using hf⟩

/-- Which assertions are made does not depend on the function set. -/
theorem exists_partitionGlobals {functions : Finset F} {globals : Finset G}
    (h : partitionGlobals M pdg functions = some globals) (functions' : Finset F) :
    ∃ globals', partitionGlobals M pdg functions' = some globals' := by
  have husers := JoinFold.exists_iff.1 ⟨globals, (partitionGlobals_eq M pdg functions) ▸ h⟩
  rw [partitionGlobals_eq]
  refine JoinFold.exists_iff.2 fun g hg => ?_
  obtain ⟨x, hx⟩ := husers g hg
  obtain ⟨users, hg, -⟩ := Option.map_eq_some_iff.1 hx
  exact ⟨_, by rw [hg, Option.map_some]⟩

end Globals

/-! ## Top theorems -/

/-- `P` has the interfaces of its function set. -/
structure Interfaced [DecidableEq F] (M : Module F G V) (pdg : PDG F G V N) (P : Partition F G) :
    Prop where
  inInterface : P.inInterface = computeInInterface pdg P.partition
  outInterface : P.outInterface = computeOutInterface M pdg P.partition

/-- What `Partitioner.partition` returns. -/
structure Partitioned [DecidableEq F] (M : Module F G V) (pdg : PDG F G V N)
    (annotations : Annotations F) (secure insecure : Partition F G) : Prop where
  mem_secure : ∀ f, f ∈ secure.partition ↔ ∃ annot ∈ annotations, annot.getFunction = f
  mem_insecure : ∀ f, f ∈ insecure.partition ↔ f ∈ M.functions ∧ f ∉ secure.partition
  secure_interfaced : Interfaced M pdg secure
  insecure_interfaced : Interfaced M pdg insecure
  insecure_related : insecure.relatedFunctions = ∅

theorem Partitioned.complementary [DecidableEq F] {M : Module F G V} {pdg : PDG F G V N}
    {annotations : Annotations F} {secure insecure : Partition F G}
    (h : Partitioned M pdg annotations secure insecure)
    (hannotations : ∀ annot ∈ annotations, annot.getFunction ∈ M.functions) :
    Complementary M secure.partition insecure.partition where
  left_mem f hf := by
    obtain ⟨annot, hannot, rfl⟩ := (h.mem_secure f).1 hf
    exact hannotations annot hannot
  right_mem f hf := ((h.mem_insecure f).1 hf).1
  cover f hf := (Decidable.em (f ∈ secure.partition)).imp_right fun hsec =>
    (h.mem_insecure f).2 ⟨hf, hsec⟩
  disjoint f hs hi := ((h.mem_insecure f).1 hi).2 hs

namespace Partitioner

variable [DecidableEq F] [DecidableEq G] [DecidableEq V] {M : Module F G V} {pdg : PDG F G V N}
  {fuel : Nat}

theorem addAnnotated_cases {annot : Annotation F} {P Q : Partition F G}
    (h : addAnnotated M pdg fuel P annot = some Q) :
    ∃ argPartition retPartition,
      PartitionForArguments.partition M pdg annot fuel = some argPartition ∧
      PartitionForReturnValue.partition M pdg annot fuel = some retPartition ∧
      Q = ((P.addPartition (PartitionForFunction.partition annot)).addPartition
        argPartition).addPartition retPartition := by
  unfold addAnnotated at h
  obtain ⟨argPartition, harg, h⟩ := Option.bind_eq_some_iff.1 h
  obtain ⟨retPartition, hret, h⟩ := Option.bind_eq_some_iff.1 h
  exact ⟨argPartition, retPartition, harg, hret, (Option.some.inj h).symm⟩

theorem partition_addAnnotated {annot : Annotation F} {P Q : Partition F G}
    (h : addAnnotated M pdg fuel P annot = some Q) :
    Q.partition = insert annot.getFunction P.partition := by
  obtain ⟨argPartition, retPartition, harg, hret, rfl⟩ := addAnnotated_cases h
  have harg := partition_arguments_subset harg
  have hret := partition_returnValue_subset hret
  ext f
  simp only [Partition.partition_addPartition, PartitionForFunction.partition,
    Partition.partition_addToPartition, Finset.mem_union, Finset.mem_insert, Finset.notMem_empty,
    or_false]
  constructor
  · rintro (((hf | hf) | hf) | hf)
    · exact .inr hf
    · exact .inl hf
    · exact .inl (Finset.mem_singleton.1 (harg hf))
    · exact .inl (Finset.mem_singleton.1 (hret hf))
  · rintro (hf | hf)
    · exact .inl (.inl (.inr hf))
    · exact .inl (.inl (.inl hf))

theorem mem_addAnnotations {annotations : Annotations F} {P Q : Partition F G}
    (h : annotations.foldlM (addAnnotated M pdg fuel) P = some Q) (f : F) :
    f ∈ Q.partition ↔ f ∈ P.partition ∨ ∃ a ∈ annotations, a.getFunction = f := by
  induction annotations generalizing P with
  | nil =>
    cases h
    simp
  | cons a annotations ih =>
    rw [List.foldlM_cons] at h
    obtain ⟨P', hP', h⟩ := Option.bind_eq_some_iff.1 h
    rw [ih h, partition_addAnnotated hP', Finset.mem_insert, List.exists_mem_cons_iff,
      or_comm (a := f = _), or_assoc, eq_comm (a := f)]

theorem relatedAll_addAnnotations {p : F → Prop} (hp : pdg.Relates M p)
    {annotations : Annotations F} {P : Partition F G}
    (h : annotations.foldlM (addAnnotated M pdg fuel) {} = some P) : RelatedAll p P := by
  refine foldlM_induct (fun P annot Q _ hP hst => ?_) (relatedAll_of_empty rfl) h
  obtain ⟨argPartition, retPartition, harg, hret, rfl⟩ := addAnnotated_cases hst
  have hfunction : RelatedAll p (PartitionForFunction.partition annot : Partition F G) :=
    relatedAll_of_empty rfl
  exact relatedAll_addPartition (relatedAll_addPartition (relatedAll_addPartition hP hfunction)
    (relatedAll_arguments hp harg)) (relatedAll_returnValue hp hret)

omit [DecidableEq V] in
theorem setGlobalsAndInterfaces_cases {P Q : Partition F G}
    (h : setGlobalsAndInterfaces M pdg P = some Q) :
    Interfaced M pdg Q ∧ Q.partition = P.partition ∧ Q.relatedFunctions = P.relatedFunctions := by
  unfold setGlobalsAndInterfaces at h
  obtain ⟨globals, -, rfl⟩ := Option.map_eq_some_iff.1 h
  exact ⟨⟨rfl, rfl⟩, rfl, rfl⟩

omit [DecidableEq G] [DecidableEq V] in
/-- The functions that `computeInsecurePartition` collects. -/
theorem foldl_complement (secure : Partition F G) (functions : List F) (P : Partition F G) :
    functions.foldl (fun P f => if f ∈ secure.partition then P else P.addToPartition f) P =
      { P with partition := P.partition ∪ functions.toFinset \ secure.partition } := by
  induction functions generalizing P with
  | nil => simp
  | cons f functions ih =>
    rw [List.foldl_cons, ih, List.toFinset_cons]
    split
    · next hf => rw [Finset.insert_sdiff_of_mem _ hf]
    · next hf =>
      rw [Finset.insert_sdiff_of_notMem _ hf, Finset.union_insert]
      simp only [Partition.addToPartition, Finset.insert_union]

theorem partition_cases {annotations : Annotations F} {secure insecure : Partition F G}
    (h : partition M pdg fuel annotations = some (secure, insecure)) :
    ∃ P, annotations.foldlM (addAnnotated M pdg fuel) {} = some P ∧
      setGlobalsAndInterfaces M pdg P = some secure ∧
      computeInsecurePartition M pdg secure = some insecure := by
  unfold partition at h
  obtain ⟨P, hP, h⟩ := Option.bind_eq_some_iff.1 h
  obtain ⟨S, hS, h⟩ := Option.bind_eq_some_iff.1 h
  obtain ⟨I, hI, h⟩ := Option.bind_eq_some_iff.1 h
  cases h
  exact ⟨P, hP, hS, hI⟩

theorem partitioned {annotations : Annotations F} {secure insecure : Partition F G}
    (h : partition M pdg fuel annotations = some (secure, insecure)) :
    Partitioned M pdg annotations secure insecure := by
  obtain ⟨P, hP, hS, hI⟩ := partition_cases h
  obtain ⟨hsecure, hpart, -⟩ := setGlobalsAndInterfaces_cases hS
  unfold computeInsecurePartition at hI
  rw [foldl_complement] at hI
  obtain ⟨hinsecure, hcompl, hrelated⟩ := setGlobalsAndInterfaces_cases hI
  refine ⟨fun f => ?_, fun f => ?_, hsecure, hinsecure, hrelated⟩
  · rw [hpart, mem_addAnnotations hP]
    simp
  · rw [hcompl]
    simp

/-- Each partition starts with the globals of its functions. -/
theorem partitionGlobals_partition {annotations : Annotations F} {secure insecure : Partition F G}
    (h : partition M pdg fuel annotations = some (secure, insecure)) :
    partitionGlobals M pdg secure.partition = some secure.partitionGlobals ∧
      partitionGlobals M pdg insecure.partition = some insecure.partitionGlobals := by
  have hset : ∀ {P Q : Partition F G}, setGlobalsAndInterfaces M pdg P = some Q →
      partitionGlobals M pdg Q.partition = some Q.partitionGlobals := by
    intro P Q h
    unfold setGlobalsAndInterfaces at h
    obtain ⟨globals, hglobals, rfl⟩ := Option.map_eq_some_iff.1 h
    exact hglobals
  obtain ⟨P, -, hS, hI⟩ := partition_cases h
  exact ⟨hset hS, hset hI⟩

theorem relatedAll_partition {p : F → Prop} (hp : pdg.Relates M p) {annotations : Annotations F}
    {secure insecure : Partition F G}
    (h : partition M pdg fuel annotations = some (secure, insecure)) : RelatedAll p secure := by
  obtain ⟨P, hP, hS, -⟩ := partition_cases h
  obtain ⟨-, -, hrelated⟩ := setGlobalsAndInterfaces_cases hS
  intro f hf
  rw [hrelated] at hf
  exact relatedAll_addAnnotations hp hP f hf

theorem relatedIn_partition (hpdg : pdg.FunctionsIn M) {annotations : Annotations F}
    {secure insecure : Partition F G}
    (h : partition M pdg fuel annotations = some (secure, insecure)) : RelatedIn M secure :=
  relatedAll_partition ⟨fun n f hf _ => hpdg.function n f hf,
    fun n f hf _ => hpdg.formalArg n f hf⟩ h

/-- Declarations are never related. -/
theorem relatedDefined_partition {annotations : Annotations F} {secure insecure : Partition F G}
    (h : partition M pdg fuel annotations = some (secure, insecure)) :
    ∀ f ∈ secure.relatedFunctions, M.isDeclaration f = false :=
  relatedAll_partition ⟨fun _ _ _ hdecl => hdecl, fun _ _ _ hdecl => hdecl⟩ h

end Partitioner

end Vazgen
