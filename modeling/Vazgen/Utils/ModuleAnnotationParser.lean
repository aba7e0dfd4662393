import Vazgen.Analysis.AnnotationOrder
import Vazgen.Analysis.ProgramPartitionAnalysis

/-!
# Annotations in the source text

Without a JSON document the analysis takes the annotations from the module, where clang leaves those of
the source text.  They name functions, but mark neither arguments nor return values, so there is
nothing to walk from: the partitioner ends at once, and finds no related function.

**`runOnModule_search_based`**: the optimisation "search-based", which moves the related functions,
leaves the partitions of such a program as they are.
-/

namespace Vazgen

open PartitionOptimizer

variable {F G V N R : Type}

/-! ## Model -/

/-- An element of `llvm.global.annotations`: the function that is annotated, if it is one, and the
text, if there are characters where it should be. -/
structure AnnotationEntry (F : Type) where
  function : Option F
  text : Option String

namespace ModuleAnnotationParser

/-- The body of the loop.  The outer `none` is a cast that fails, the inner one something else than a
function. -/
def parseEntry (e : AnnotationEntry F) : Option <| Option <| Annotation F :=
  match e.function with
  | none => some none
  | some fn => e.text.map fun text => some { getAnnotation := text, getFunction := fn }

/-- `parseAnnotations`, of a module that has the variable or not. -/
def parseAnnotations [DecidableEq F] (globalAnnos : Option <| List <| AnnotationEntry F) :
    Option (JsonAnnotationParser.AnnotationSets F) :=
  match globalAnnos with
  | none => some []
  | some annot => annot.foldlM (fun sets e =>
      (parseEntry e).map (JsonAnnotationParser.insertFound sets)) []

/-! ## What the parser finds -/

/-- Nothing but the function is annotated. -/
structure Unmarked (annot : Annotation F) : Prop where
  arguments : annot.getAnnotatedArguments = []
  returns : annot.isReturnAnnotated = false

theorem parseEntry_cases {e : AnnotationEntry F} {annot : Annotation F}
    (h : parseEntry e = some (some annot)) :
    Unmarked annot ∧ e.function = some annot.getFunction := by
  unfold parseEntry at h
  split at h
  · cases h
  · next fn hfn =>
    obtain ⟨text, -, hannot⟩ := Option.map_eq_some_iff.1 h
    cases hannot
    exact ⟨⟨rfl, rfl⟩, hfn⟩

theorem exists_annotation {e : AnnotationEntry F} {fn : F} (hfn : e.function = some fn)
    {found : Option <| Annotation F} (h : parseEntry e = some found) :
    ∃ annot, found = some annot ∧ annot.getFunction = fn := by
  unfold parseEntry at h
  rw [hfn] at h
  obtain ⟨text, -, rfl⟩ := Option.map_eq_some_iff.1 h
  exact ⟨_, rfl, rfl⟩

theorem exists_mem_of_mapM {α β : Type} {f : α → Option β} {l : List α} {r : List β}
    (h : l.mapM f = some r) {a : α} (ha : a ∈ l) : ∃ b ∈ r, f a = some b := by
  induction l generalizing r with
  | nil => cases ha
  | cons a' l ih =>
    rw [List.mapM_cons] at h
    obtain ⟨b', hb', h⟩ := Option.bind_eq_some_iff.1 h
    obtain ⟨bs, hbs, h⟩ := Option.bind_eq_some_iff.1 h
    cases h
    rcases List.mem_cons.1 ha with rfl | ha
    · exact ⟨b', List.mem_cons_self, hb'⟩
    · obtain ⟨b, hb, hfb⟩ := ih hbs ha
      exact ⟨b, List.mem_cons_of_mem b' hb, hfb⟩

/-- The annotations of a module are on its annotated functions, and on them only. -/
theorem parseAnnotations_cases [DecidableEq F] {annot : List (AnnotationEntry F)}
    {sets : JsonAnnotationParser.AnnotationSets F} {annotations : Annotations F}
    (h : parseAnnotations (some annot) = some sets)
    (hall : JsonAnnotationParser.AllAnnotations sets annotations) :
    (∀ a ∈ annotations, Unmarked a) ∧
      ∀ f, (∃ a ∈ annotations, a.getFunction = f) ↔ ∃ e ∈ annot, e.function = some f := by
  have hloop := h
  unfold parseAnnotations at hloop
  dsimp only at hloop
  rw [JsonAnnotationParser.foldlM_map] at hloop
  obtain ⟨found, hfound, rfl⟩ := Option.map_eq_some_iff.1 hloop
  rw [JsonAnnotationParser.foldl_insertFound] at hall
  have hsource : ∀ a ∈ annotations, ∃ e ∈ annot, parseEntry e = some (some a) := by
    intro a ha
    exact exists_of_mem_mapM hfound (List.reduceOption_mem_iff.1 (mem_occurrences hall ha))
  refine ⟨fun a ha => ?_, fun f => ⟨?_, ?_⟩⟩
  · obtain ⟨e, -, he⟩ := hsource a ha
    exact (parseEntry_cases he).1
  · rintro ⟨a, ha, rfl⟩
    obtain ⟨e, hmem, he⟩ := hsource a ha
    exact ⟨e, hmem, (parseEntry_cases he).2⟩
  · rintro ⟨e, hmem, hfn⟩
    obtain ⟨b, hb, he⟩ := exists_mem_of_mapM hfound hmem
    obtain ⟨occ, rfl, hocc⟩ := exists_annotation hfn he
    obtain ⟨a, ha, hsame⟩ := exists_annotated hall (List.reduceOption_mem_iff.2 hb)
    exact ⟨a, ha, hsame.trans hocc⟩

/-! ## Partitioning -/

section Partition

variable [DecidableEq F] [DecidableEq G] [DecidableEq V] {M : Module F G V} {pdg : PDG F G V N}
  {annotations : Annotations F}

/-- Without a mark there is no walk. -/
theorem addAnnotated_unmarked {annot : Annotation F} (h : Unmarked annot) (fuel : Nat)
    (P : Partition F G) :
    Partitioner.addAnnotated M pdg fuel P annot = some (((P.addPartition
      (PartitionForFunction.partition annot)).addPartition {}).addPartition {}) := by
  have hargs : PartitionForArguments.canPartition M pdg annot = false := by
    unfold PartitionForArguments.canPartition
    rw [h.arguments]
    rfl
  have hreturns : PartitionForReturnValue.canPartition M pdg annot = false := by
    unfold PartitionForReturnValue.canPartition
    rw [h.returns]
    rfl
  unfold Partitioner.addAnnotated PartitionForArguments.partition PartitionForReturnValue.partition
  rw [hargs, hreturns]
  rfl

variable (M pdg) in
theorem exists_addAnnotations (h : ∀ annot ∈ annotations, Unmarked annot) (fuel : Nat)
    {P : Partition F G} (hP : RelatedAll (fun _ => False) P) :
    ∃ Q, annotations.foldlM (Partitioner.addAnnotated M pdg fuel) P = some Q ∧
      RelatedAll (fun _ => False) Q := by
  induction annotations generalizing P with
  | nil => exact ⟨P, rfl, hP⟩
  | cons annot annotations ih =>
    obtain ⟨hannot, h⟩ := List.forall_mem_cons.1 h
    rw [List.foldlM_cons, addAnnotated_unmarked hannot]
    refine ih h ?_
    have hnone : ∀ {Q : Partition F G}, Q.relatedFunctions = ∅ → RelatedAll (fun _ => False) Q :=
      fun hQ => relatedAll_of_empty hQ
    exact relatedAll_addPartition (relatedAll_addPartition (relatedAll_addPartition hP (hnone rfl))
      (hnone rfl)) (hnone rfl)

omit [DecidableEq G] in
theorem relatedFunctions_eq_empty {P : Partition F G} (h : RelatedAll (fun _ => False) P) :
    P.relatedFunctions = ∅ := by
  refine Finmap.ext_lookup fun f => ?_
  rw [Finmap.lookup_eq_none.2 (h f), Finmap.lookup_empty]

omit [DecidableEq V] in
theorem exists_setGlobalsAndInterfaces
    (hglobals : ∀ g ∈ M.globals, ∃ users, globalUsers pdg g = some users) (P : Partition F G) :
    ∃ Q, Partitioner.setGlobalsAndInterfaces M pdg P = some Q := by
  have hsome : ∃ globals, partitionGlobals M pdg P.partition = some globals := by
    rw [partitionGlobals_eq]
    refine JoinFold.exists_iff.2 fun g hg => ?_
    obtain ⟨users, husers⟩ := hglobals g hg
    exact ⟨_, by rw [husers, Option.map_some]⟩
  obtain ⟨globals, hsome⟩ := hsome
  unfold Partitioner.setGlobalsAndInterfaces
  rw [hsome]
  exact ⟨_, rfl⟩

/-- No fuel is used. -/
theorem exists_partition_unmarked (h : ∀ annot ∈ annotations, Unmarked annot)
    (hglobals : ∀ g ∈ M.globals, ∃ users, globalUsers pdg g = some users) (fuel : Nat) :
    ∃ secure insecure, Partitioner.partition M pdg fuel annotations = some (secure, insecure) ∧
      secure.relatedFunctions = ∅ := by
  have hempty : RelatedAll (fun _ => False) ({} : Partition F G) := relatedAll_of_empty rfl
  obtain ⟨P, hP, hrelated⟩ := exists_addAnnotations M pdg h fuel hempty
  obtain ⟨secure, hsecure⟩ := exists_setGlobalsAndInterfaces hglobals P
  obtain ⟨insecure, hinsecure⟩ := exists_setGlobalsAndInterfaces hglobals
    (M.functions.foldl (fun P f => if f ∈ secure.partition then P else P.addToPartition f) {})
  refine ⟨secure, insecure, ?_, ?_⟩
  · unfold Partitioner.partition Partitioner.computeInsecurePartition
    simp only [hP, hsecure, hinsecure, Option.bind_eq_bind, Option.bind_some, Option.pure_def]
  · rw [(Partitioner.setGlobalsAndInterfaces_cases hsecure).2.2, relatedFunctions_eq_empty hrelated]

end Partition

/-! ## Top theorem -/

section Pass

variable [DecidableEq F] [DecidableEq G] [DecidableEq V] [Field R] [LinearOrder R]

omit [DecidableEq V] in
/-- Where no function is related, STATIC_ANALYSIS moves none. -/
theorem run_staticAnalysis {env : Environment F G V N R} {secure insecure S I : Partition F G}
    (hdisjoint : ∀ f ∈ insecure.partition, f ∉ secure.partition)
    (hout : ∀ f ∈ insecure.outInterface, f ∈ secure.partition)
    (hsecure : Interfaced env.module env.pdg secure)
    (hinsecure : Interfaced env.module env.pdg insecure) (hrelated : secure.relatedFunctions = ∅)
    (h : run env secure insecure [.staticAnalysis] = some (S, I)) : S = secure ∧ I = insecure := by
  have hbatch := runsBatch_of_run (by simp [InBatch]) hout h
  have hpartition : S.partition = secure.partition := by
    ext f
    rw [hbatch.mem_secure]
    simp [MovedBy, hrelated, Finmap.notMem_empty]
  constructor
  · refine Partition.ext_of_interfaced hbatch.secureInterfaced hsecure hpartition ?_ ?_
    · refine Finmap.ext_lookup fun f => ?_
      rw [hbatch.secureRelated, hrelated]
      simp
    · rw [hbatch.secureGlobals, if_neg (by simp)]
  · refine Partition.ext_of_interfaced hbatch.insecureInterfaced hinsecure ?_
      hbatch.insecureRelated ?_
    · rw [hbatch.insecure_eq, hpartition, Finset.sdiff_eq_self_iff_disjoint]
      exact Finset.disjoint_left.2 hdisjoint
    · rw [hbatch.insecureGlobals, if_neg (by simp)]

/-- **"search-based" has no effect on a program that is annotated in its source text.**  The pass ends
with any fuel; the annotated functions are the secure ones, and none is related to them. -/
theorem runOnModule_search_based (A : AnalysisInput F G V N R) (hA : A.Consistent)
    (hglobals : ∀ g ∈ A.module.globals, ∃ users, globalUsers A.pdg g = some users)
    {annot : List (AnnotationEntry F)}
    (hfunctions : ∀ e ∈ annot, ∀ f, e.function = some f → f ∈ A.module.functions)
    {sets : JsonAnnotationParser.AnnotationSets F} (hparse : parseAnnotations (some annot) = some sets)
    {annotations : Annotations F} (hall : JsonAnnotationParser.AllAnnotations sets annotations) :
    ∃ P, runOnModule A annotations "" = some P ∧
      runOnModule A annotations "search-based" = some P ∧
      P.securePartition.relatedFunctions = ∅ ∧
      ∀ f, f ∈ P.securePartition.partition ↔ ∃ e ∈ annot, e.function = some f := by
  obtain ⟨hunmarked, hmem⟩ := parseAnnotations_cases hparse hall
  have hannotations : ∀ a ∈ annotations, a.getFunction ∈ A.module.functions := by
    intro a ha
    obtain ⟨e, he, hfn⟩ := (hmem a.getFunction).1 ⟨a, ha, rfl⟩
    exact hfunctions e he _ hfn
  obtain ⟨secure, insecure, hpartition, hrelated⟩ :=
    exists_partition_unmarked hunmarked hglobals A.fuel
  have hparts := Partitioner.partitioned hpartition
  obtain ⟨callgraph, hpart, hnode⟩ := exists_partition hA hannotations hpartition
  have hsplits : Splits (A.environment callgraph) secure insecure := splits_of_partition
    hA.functionsIn (fun f hf _ => hA.callSites.hasFunctionPDG f hf) hnode hpartition
  obtain ⟨-, S, I, -, -, hrun⟩ := exists_run hsplits.ready
    (show ∀ opt ∈ [Optimization.staticAnalysis], Supported opt by simp [Supported])
  obtain ⟨rfl, rfl⟩ := run_staticAnalysis (fun f hf => ((hparts.mem_insecure f).1 hf).2)
    hsplits.insecure_out hparts.secure_interfaced hparts.insecure_interfaced hrelated hrun
  refine ⟨{ callgraph := callgraph, securePartition := S, insecurePartition := I }, ?_, ?_, hrelated,
    fun f => (hparts.mem_secure f).trans (hmem f)⟩
  · unfold runOnModule
    rw [hpart, Option.bind_some, if_pos rfl]
  · unfold runOnModule ProgramPartition.optimize
    rw [hpart, Option.bind_some, if_neg (by decide)]
    show Option.map _ (run (A.environment callgraph) S I [.staticAnalysis]) = _
    rw [hrun, Option.map_some]

end Pass

/-- The chain, with `work` annotated in the source text. -/
theorem chain_search_based : ∃ sets annotations P,
    parseAnnotations (some [{ function := some .work, text := some "sensitive" }]) = some sets ∧
      JsonAnnotationParser.AllAnnotations sets annotations ∧
      runOnModule chainInput annotations "search-based" = some P ∧
      ∀ f, f ∈ P.securePartition.partition ↔ f = .work := by
  have hparse : parseAnnotations
      (some [{ function := some ChainFunction.work, text := some "sensitive" }]) =
        some [(("sensitive", .work), { getAnnotation := "sensitive", getFunction := .work })] :=
    rfl
  have hall : JsonAnnotationParser.AllAnnotations
      [(("sensitive", ChainFunction.work), { getAnnotation := "sensitive", getFunction := .work })]
      [{ getAnnotation := "sensitive", getFunction := .work }] := List.Perm.refl _
  obtain ⟨P, -, hrun, -, hmem⟩ := runOnModule_search_based chainInput chain_consistent
    (fun g hg => nomatch hg) (fun e _ f _ => by cases f <;> decide) hparse hall
  exact ⟨_, _, P, hparse, hall, hrun, fun f => by rw [hmem]; simp [eq_comm]⟩

end ModuleAnnotationParser

end Vazgen
