import Vazgen.Analysis.StatisticsDocument
import Vazgen.Eval.PickFunctions

/-!
# A run of the evaluation

The evaluation has a percentage of the functions annotated, runs the analysis on the document with the
annotations and reads the statistics that the analysis dumps.

**`picked_reported`**: the statistics list every function that was picked in the secure partition, for
every optimisation that the analysis ends with; without one they list no other functions.
-/

namespace Vazgen

variable {F G V N Q R J Text : Type}

namespace AnnotationCreator

/-! ## The functions of the document -/

/-- Functions that are found by their names have different ones. -/
theorem getName_inj {M : Module F G V} {f g : F} (hf : M.getFunction (M.getName f) = some f)
    (hg : M.getFunction (M.getName g) = some g) (hname : M.getName f = M.getName g) : f = g := by
  rw [hname, hg] at hf
  exact (Option.some.inj hf).symm

section Statistics

variable [DecidableEq F] [DecidableEq G] [DecidableEq V] [Field R] [LinearOrder R]

omit [DecidableEq G] [DecidableEq V] in
/-- The document of the statistics, at the functions of the secure partition. -/
theorem exists_partition_functions (lib : JsonLibrary J Text R) (A : AnalysisInput F G V N R)
    (P : ProgramPartition F G R) :
    ∃ stats root, P.dumpStats lib A = some stats ∧ lib.parse stats = some root ∧
      lib.getPath root ["partition", "secure_partition", "partition_functions"] =
        some (lib.ofStrings ((A.order.list P.securePartition.partition).map A.module.getName)) := by
  obtain ⟨stats, root, hreport, hparse, hpath⟩ := PartitionStatistics.getPath_entries lib A.module
    A.order P.callgraph P.securePartition P.insecurePartition
  exact ⟨stats, root, hreport, hparse, hpath "secure_partition" "partition_functions"⟩

end Statistics

/-! ## Top theorem -/

section Run

variable [DecidableEq F] [DecidableEq G] [DecidableEq V] [Field R] [LinearOrder R]
  {percentage : Nat}

/-- **What was picked is reported**, for every percentage, every shuffle and all random numbers, once
the walks of the annotations have ended. -/
theorem picked_reported {J' Text' : Type} (lib : JsonLibrary J Text Q)
    (statsLib : JsonLibrary J' Text' R) (A : AnalysisInput F G V N R) (hA : A.Consistent)
    (hfunctions : A.module.functions.Nodup)
    (hgetFunction : ∀ f ∈ A.module.functions,
      A.module.getFunction (A.module.getName f) = some f)
    (hargs : ∀ f ∈ A.module.functions, (A.module.argTypes f).length ≤ 2 ^ 32)
    (hpercentage : percentage ≤ 100) (shuffle : List F → List F)
    (hshuffle : ∀ l, (shuffle l).Perm l) (rand : Nat → Nat) :
    ∃ (text : Text) (sets : JsonAnnotationParser.AnnotationSets F) (picked : List F),
      runOnModule lib shuffle rand A.module percentage = some text ∧
      pickFunctions shuffle rand A.module percentage = some picked ∧
      picked ⊆ eligibleFunctions A.module ∧
      picked.length = (eligibleFunctions A.module).length * percentage / 100 ∧ picked.Nodup ∧
      JsonAnnotationParser.parseAnnotations lib A.module (some text) = some sets ∧
      ∀ annotations, JsonAnnotationParser.AllAnnotations sets annotations →
        ∀ secure insecure, Partitioner.partition A.module A.pdg A.fuel annotations =
            some (secure, insecure) →
          ∀ optName, optName ≠ "function-duplicate" →
            ∃ (P : ProgramPartition F G R) (stats : Text') (root : J') (functions : List String),
              Vazgen.runOnModule A annotations optName = some P ∧
              P.dumpStats statsLib A = some stats ∧ statsLib.parse stats = some root ∧
              statsLib.getPath root ["partition", "secure_partition", "partition_functions"] =
                some (statsLib.ofStrings functions) ∧
              functions.Nodup ∧ picked.map A.module.getName ⊆ functions ∧
              (optName = "" → functions.Perm (picked.map A.module.getName)) := by
  obtain ⟨s, hs, hpicking⟩ := exists_picking (M := A.module) hpercentage hshuffle rand
  have hpicked : ∀ f ∈ s.functionsToAnnotate, f ∈ A.module.functions := fun f hf =>
    (List.mem_filter.1 (hpicking.drawn.subset hf)).1
  have hnodup := hpicking.drawn.nodup (hfunctions.filter _)
  obtain ⟨text, document, hdump, hparse, hoccs⟩ := exists_occurrences lib
    (fun f hf => hgetFunction f (hpicked f hf)) fun f hf => hargs f (hpicked f hf)
  refine ⟨text, (s.functionsToAnnotate.map (annotationOf A.module)).foldl JsonAnnotationParser.insert [],
    s.functionsToAnnotate, ?_, hs, fun _ hf => hpicking.drawn.subset hf, hpicking.picked, hnodup, ?_, ?_⟩
  · unfold runOnModule
    rw [hs]
    exact hdump
  · rw [JsonAnnotationParser.parseAnnotations_eq lib A.module hparse, hoccs, Option.map_some]
  intro annotations hall secure insecure hpartition optName hname
  obtain ⟨P, hP⟩ := (runOnModule_cases hA hoccs hall hpartition).1.2 hname
  have hsound := (runOnModule_cases hA hoccs hall hpartition).2 P hP
  obtain ⟨stats, root, hstats, hroot, hpath⟩ := exists_partition_functions statsLib A P
  have hnames : ((A.order.list P.securePartition.partition).map A.module.getName).Nodup := by
    refine (A.order.nodup _).map_on fun f hf g hg => ?_
    exact getName_inj (hgetFunction f (hsound.complementary.left_mem f ((A.order.mem _ f).1 hf)))
      (hgetFunction g (hsound.complementary.left_mem g ((A.order.mem _ g).1 hg)))
  have hmem : ∀ f ∈ s.functionsToAnnotate, f ∈ P.securePartition.partition := fun f hf =>
    hsound.annotated (annotationOf A.module f) (List.mem_map_of_mem hf)
  refine ⟨P, stats, root, _, hP, hstats, hroot, hpath, hnames, ?_, ?_⟩
  · intro name hmapped
    obtain ⟨f, hf, rfl⟩ := List.mem_map.1 hmapped
    exact List.mem_map_of_mem ((A.order.mem _ f).2 (hmem f hf))
  · rintro rfl
    refine List.Perm.map _ ((List.perm_ext_iff_of_nodup (A.order.nodup _) hnodup).2 fun f => ?_)
    rw [A.order.mem]
    constructor
    · intro hf
      -- nothing moves, and what is annotated has been picked
      rw [hsound.moved (by decide)] at hf
      have hsecure : f ∈ secure.partition := hf.elim id fun ⟨opt, hopt, _⟩ => by
        simp [getOptimizations] at hopt
      obtain ⟨annot, hannot, rfl⟩ := ((Partitioner.partitioned hpartition).mem_secure f).1 hsecure
      obtain ⟨f, hannotated, rfl⟩ := List.mem_map.1 (mem_occurrences hall hannot)
      exact hannotated
    · exact hmem f

end Run

open PartitionOptimizer in
/-- The chain: half of `work` and `log` is annotated, which is `work`. -/
theorem chain_picked_reported : ∃ (annotations : Annotations ChainFunction)
    (P : ProgramPartition ChainFunction Empty ℚ) (stats root : Json ℚ) (functions : List String),
    Vazgen.runOnModule chainInput annotations "" = some P ∧
      P.dumpStats (Json.library fun _ => 0) chainInput = some stats ∧
      (Json.library fun _ => 0).parse stats = some root ∧
      (Json.library fun _ => 0).getPath root
          ["partition", "secure_partition", "partition_functions"] =
        some ((Json.library fun _ => 0).ofStrings functions) ∧
      functions.length = 1 := by
  obtain ⟨text, sets, picked, hrun, -, -, hlength, -, hparse, hreported⟩ :=
    picked_reported (Json.library id) (Json.library fun _ => 0) chainInput
      chain_consistent (by decide) (by decide) (by decide) (show 50 ≤ 100 by decide) id
      List.Perm.refl fun _ => 0
  obtain rfl := Option.some.inj (hrun.symm.trans rfl)
  obtain rfl := Option.some.inj (hparse.symm.trans rfl)
  have hsome : (Partitioner.partition chainModule chainPDG 1
      [{ getAnnotation := "sensitive", getFunction := .work }]).isSome = true := by decide
  obtain ⟨⟨secure, insecure⟩, hpartition⟩ := Option.isSome_iff_exists.1 hsome
  obtain ⟨P, stats, root, functions, hP, hstats, hroot, hpath, -, -, hperm⟩ :=
    hreported _ (List.Perm.refl _) secure insecure hpartition "" (by decide)
  refine ⟨_, P, stats, root, functions, hP, hstats, hroot, hpath, ?_⟩
  rw [(hperm rfl).length_eq, List.length_map, hlength]
  rfl

end AnnotationCreator

end Vazgen
