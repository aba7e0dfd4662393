import Vazgen.Analysis.Completeness
import Vazgen.Analysis.Termination
import Vazgen.Analysis.PartitionerSets
import Vazgen.Lib.JoinFold

/-!
# The order of the annotations

An annotation contributes three partitions, which `Partitioner.partition` merges into the secure
one.  Partitions are ordered by what they contain, smaller relation levels being higher; merging is
the join of this order.  So only the set of annotations matters (`partition_annotations`).
-/

namespace Vazgen

open Worklist JoinFold

variable {F G V N : Type} [DecidableEq F]

namespace Partition

/-- `Q` contains what `P` does, and relates `P`'s related functions at the same or a smaller
level. -/
structure Within (P Q : Partition F G) : Prop where
  relatedFunctions : MinMap.Below P.relatedFunctions Q.relatedFunctions
  partition : P.partition ⊆ Q.partition
  inInterface : P.inInterface ⊆ Q.inInterface
  outInterface : P.outInterface ⊆ Q.outInterface
  partitionGlobals : P.partitionGlobals ⊆ Q.partitionGlobals

theorem Within.refl (P : Partition F G) : Within P P :=
  ⟨.refl _, Finset.Subset.refl _, Finset.Subset.refl _, Finset.Subset.refl _, Finset.Subset.refl _⟩

/-- Merging two partitions gives the least one that contains both. -/
theorem addPartition_within_iff [DecidableEq G] {P Q R : Partition F G} :
    Within (P.addPartition Q) R ↔ Within P R ∧ Within Q R := by
  constructor
  · intro h
    have hrelated := MinMap.mergeMin_below_iff.1 h.relatedFunctions
    have hpart := Finset.union_subset_iff.1 h.partition
    have hin := Finset.union_subset_iff.1 h.inInterface
    have hout := Finset.union_subset_iff.1 h.outInterface
    have hglobals := Finset.union_subset_iff.1 h.partitionGlobals
    exact ⟨⟨hrelated.1, hpart.1, hin.1, hout.1, hglobals.1⟩,
      ⟨hrelated.2, hpart.2, hin.2, hout.2, hglobals.2⟩⟩
  · rintro ⟨h, h'⟩
    exact ⟨MinMap.mergeMin_below_iff.2 ⟨h.relatedFunctions, h'.relatedFunctions⟩,
      Finset.union_subset h.partition h'.partition,
      Finset.union_subset h.inInterface h'.inInterface,
      Finset.union_subset h.outInterface h'.outInterface,
      Finset.union_subset h.partitionGlobals h'.partitionGlobals⟩

instance [DecidableEq G] : SemilatticeSup (Partition F G) where
  le := Within
  le_refl := .refl
  le_trans _ _ _ h h' :=
    ⟨h.relatedFunctions.trans h'.relatedFunctions, h.partition.trans h'.partition,
      h.inInterface.trans h'.inInterface, h.outInterface.trans h'.outInterface,
      h.partitionGlobals.trans h'.partitionGlobals⟩
  le_antisymm P Q h h' := by
    cases P
    cases Q
    rw [mk.injEq]
    exact ⟨h.relatedFunctions.antisymm h'.relatedFunctions, h.partition.antisymm h'.partition,
      h.inInterface.antisymm h'.inInterface, h.outInterface.antisymm h'.outInterface,
      h.partitionGlobals.antisymm h'.partitionGlobals⟩
  sup := addPartition
  le_sup_left _ _ := (addPartition_within_iff.1 (.refl _)).1
  le_sup_right _ _ := (addPartition_within_iff.1 (.refl _)).2
  sup_le _ _ _ h h' := addPartition_within_iff.2 ⟨h, h'⟩

end Partition

/-! ## Fuel -/

section Fuel

variable [DecidableEq V] {M : Module F G V} {pdg : PDG F G V N} {annot : Annotation F} {fuel : Nat}
  {P : Partition F G}

theorem PartitionForArguments.partition_mono (more : Nat)
    (h : PartitionForArguments.partition M pdg annot fuel = some P) :
    PartitionForArguments.partition M pdg annot (fuel + more) = some P := by
  unfold PartitionForArguments.partition at h ⊢
  split at h
  · next hcan =>
    rw [if_pos hcan]
    obtain ⟨t, ht, rfl⟩ := Option.map_eq_some_iff.1 h
    have hmore := foldlM_mono (f := fun fuel s arg => if isPointerArg M annot arg then
      traverseForArgument M pdg fuel annot.getFunction arg s else some s)
      (fun fuel more s arg t hst => by
        split at hst
        · next hp => rw [if_pos hp]; exact traverseForArgument_mono more hst
        · next hp => rw [if_neg hp]; exact hst) more ht
    exact Option.map_eq_some_iff.2 ⟨t, hmore, rfl⟩
  · next hcan => rw [if_neg hcan]; exact h

theorem PartitionForReturnValue.partition_mono (more : Nat)
    (h : PartitionForReturnValue.partition M pdg annot fuel = some P) :
    PartitionForReturnValue.partition M pdg annot (fuel + more) = some P := by
  unfold PartitionForReturnValue.partition at h ⊢
  split at h
  · next hcan =>
    rw [if_pos hcan]
    obtain ⟨t, ht, rfl⟩ := Option.map_eq_some_iff.1 h
    exact Option.map_eq_some_iff.2 ⟨t, whileSome_mono fuel _ t ht more, rfl⟩
  · next hcan => rw [if_neg hcan]; exact h

end Fuel

namespace Partitioner

variable [DecidableEq G] [DecidableEq V] (M : Module F G V) (pdg : PDG F G V N)

/-! ## What an annotation contributes -/

/-- The merge of an annotation's three partitions. -/
def contribution (fuel : Nat) (annot : Annotation F) : Option (Partition F G) := do
  let argPartition ← PartitionForArguments.partition M pdg annot fuel
  let retPartition ← PartitionForReturnValue.partition M pdg annot fuel
  pure (PartitionForFunction.partition annot ⊔ argPartition ⊔ retPartition)

theorem addAnnotated_eq (fuel : Nat) (P : Partition F G) (annot : Annotation F) :
    addAnnotated M pdg fuel P annot = (contribution M pdg fuel annot).map (P ⊔ ·) := by
  unfold addAnnotated contribution
  cases PartitionForArguments.partition M pdg annot fuel with
  | none => rfl
  | some argPartition =>
    cases PartitionForReturnValue.partition M pdg annot fuel with
    | none => rfl
    | some retPartition =>
      refine congrArg some ?_
      show P ⊔ PartitionForFunction.partition annot ⊔ argPartition ⊔ retPartition = P ⊔
        (PartitionForFunction.partition annot ⊔ argPartition ⊔ retPartition)
      rw [sup_assoc, sup_assoc, sup_assoc]

/-- The secure partition joins the contributions. -/
theorem foldlM_addAnnotated (fuel : Nat) (annotations : Annotations F) :
    annotations.foldlM (addAnnotated M pdg fuel) {} =
      joinFold (contribution M pdg fuel) {} annotations := by
  unfold joinFold
  congr 1
  funext P annot
  exact addAnnotated_eq M pdg fuel P annot

variable {M pdg}

theorem contribution_mono {fuel : Nat} (more : Nat) {annot : Annotation F} {P : Partition F G}
    (h : contribution M pdg fuel annot = some P) :
    contribution M pdg (fuel + more) annot = some P := by
  unfold contribution at h ⊢
  obtain ⟨argPartition, harg, h⟩ := Option.bind_eq_some_iff.1 h
  obtain ⟨retPartition, hret, h⟩ := Option.bind_eq_some_iff.1 h
  rw [PartitionForArguments.partition_mono more harg,
    PartitionForReturnValue.partition_mono more hret]
  exact h

/-- What an annotation contributes does not depend on the fuel. -/
theorem contribution_unique {fuel fuel' : Nat} {annot : Annotation F} {P Q : Partition F G}
    (h : contribution M pdg fuel annot = some P)
    (h' : contribution M pdg fuel' annot = some Q) : P = Q := by
  have hP := contribution_mono fuel' h
  have hQ := contribution_mono fuel h'
  rw [Nat.add_comm, hP] at hQ
  exact Option.some.inj hQ

/-! ## Top theorem -/

/-- **Order of the annotations.**  Lists of the same annotations, in any order and repeated any
number of times, are partitioned alike.  More annotations remove no function and no related function
from the secure partition and raise no level. -/
theorem partition_annotations (annotations annotations' : Annotations F) :
    ((∀ annot, annot ∈ annotations ↔ annot ∈ annotations') →
      ∀ fuel, partition M pdg fuel annotations = partition M pdg fuel annotations') ∧
    ((∀ annot ∈ annotations, annot ∈ annotations') →
      ∀ fuel fuel' secure insecure secure' insecure',
        partition M pdg fuel annotations = some (secure, insecure) →
        partition M pdg fuel' annotations' = some (secure', insecure') →
        secure.partition ⊆ secure'.partition ∧
          ∀ f level, secure.relatedFunctions.lookup f = some level →
            ∃ level' ≤ level, secure'.relatedFunctions.lookup f = some level') := by
  constructor
  · intro hmem fuel
    unfold partition
    rw [foldlM_addAnnotated, foldlM_addAnnotated, eq_of_mem_iff hmem]
  · intro hsub fuel fuel' secure insecure secure' insecure' h h'
    obtain ⟨P, hP, hS, -⟩ := partition_cases h
    obtain ⟨Q, hQ, hS', -⟩ := partition_cases h'
    obtain ⟨-, hpart, hrelated⟩ := setGlobalsAndInterfaces_cases hS
    obtain ⟨-, hpart', hrelated'⟩ := setGlobalsAndInterfaces_cases hS'
    rw [foldlM_addAnnotated] at hP hQ
    have hle : P ≤ Q := le_of_subset hP hQ le_rfl hsub fun annot _ x y hx hy =>
      (contribution_unique hx hy).le
    rw [hpart, hpart', hrelated, hrelated']
    exact ⟨hle.partition, hle.relatedFunctions⟩

omit [DecidableEq F] [DecidableEq G] [DecidableEq V] M pdg

/-- The arguments of `obstructedAnnotation` alone. -/
def argumentAnnotated := { obstructedAnnotation with isReturnAnnotated := false }

def bothAnnotated := [argumentAnnotated, obstructedAnnotation]

theorem argumentAnnotated_partition :
    (∀ fuel,
      partition obstructedModule unobstructedPDG fuel (bothAnnotated ++ bothAnnotated.reverse) =
        partition obstructedModule unobstructedPDG fuel bothAnnotated) ∧
    ∃ secure insecure secure' insecure',
      partition obstructedModule unobstructedPDG 10 [argumentAnnotated] =
        some (secure, insecure) ∧
      partition obstructedModule unobstructedPDG 12 bothAnnotated = some (secure', insecure') ∧
      secure.partition ⊆ secure'.partition ∧
      ∀ f level, secure.relatedFunctions.lookup f = some level →
        ∃ level' ≤ level, secure'.relatedFunctions.lookup f = some level' := by
  refine ⟨(partition_annotations _ _).1 fun annot => ?_, ?_⟩
  · rw [List.mem_append, List.mem_reverse, or_self]
  · have h : (partition obstructedModule unobstructedPDG 10 [argumentAnnotated]).isSome = true := by
      decide
    have h' : (partition obstructedModule unobstructedPDG 12 bothAnnotated).isSome = true := by
      decide
    obtain ⟨⟨secure, insecure⟩, h⟩ := Option.isSome_iff_exists.1 h
    obtain ⟨⟨secure', insecure'⟩, h'⟩ := Option.isSome_iff_exists.1 h'
    exact ⟨secure, insecure, secure', insecure', h, h',
      (partition_annotations _ _).2 (by simp [bothAnnotated]) 10 12 _ _ _ _ h h'⟩

end Partitioner

end Vazgen
