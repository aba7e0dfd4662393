import Vazgen.Analysis.CallGraphWeights
import Vazgen.Optimization.BatchRun
import Vazgen.Utils.JsonAnnotationParser

/-!
# The partition analysis

The pass reads the annotations, partitions the module, assigns weights to the call graph and runs the
optimisations that go by the name on the command line.

**`runOnModule_ends_iff`**: the pass ends for every name but "function-duplicate".  Then the functions
of the document are secure, the partitions split the module and their interfaces mediate all calls
between them; and but for "kl" it is known which functions have moved.
-/

namespace Vazgen

open PartitionOptimizer

variable {F G V N Q R J Text : Type}

/-! ## Model -/

/-- The optimisations that go by a name, and the error that is logged. -/
def getOptimizations (optName : String) : List Optimization × Option String :=
  if optName = "search-based" then ([.staticAnalysis], none)
  else if optName = "local" then ([.functionsMoveTo, .globalsMoveTo], none)
  else if optName = "function-move" then ([.functionsMoveTo], none)
  else if optName = "global-move" then ([.globalsMoveTo], none)
  else if optName = "function-duplicate" then ([.duplicateFunctions], none)
  else if optName = "kl" then ([.kernighanLin], none)
  else if optName = "ilp" then ([.ilp], none)
  else ([], some ("No optimization with name " ++ optName))

/-- What the pass is run on. -/
structure AnalysisInput (F G V N R : Type) where
  module : Module F G V
  pdg : PDG F G V N
  llvmGraph : LLVMCallGraph F
  loopInfoGetter : LoopInfoGetter F V
  order : IterationOrder F
  solve : LinearProgram.Program (ILPOptimization.Var F) R → Option (ILPOptimization.Var F → R)
  fuel : Nat

/-- `ProgramPartition`, the members that change. -/
structure ProgramPartition (F G R : Type) where
  callgraph : CallGraph F R
  securePartition : Partition F G := {}
  insecurePartition : Partition F G := {}

def AnalysisInput.environment (A : AnalysisInput F G V N R) (callgraph : CallGraph F R) :
    Environment F G V N R where
  module := A.module
  pdg := A.pdg
  callgraph := callgraph
  loopInfoGetter := A.loopInfoGetter
  order := A.order
  solve := A.solve

section Model

variable [DecidableEq F] [DecidableEq G] [DecidableEq V] [Field R] [LinearOrder R]
  (A : AnalysisInput F G V N R)

namespace ProgramPartition

def partition (annotations : Annotations F) (P : ProgramPartition F G R) :
    Option (ProgramPartition F G R) :=
  (Partitioner.partition A.module A.pdg A.fuel annotations).bind fun (secure, insecure) =>
    (WeightAssigningHelper.assignWeights A.module A.pdg A.loopInfoGetter A.order secure
      P.callgraph).map fun callgraph =>
        { callgraph := callgraph, securePartition := secure, insecurePartition := insecure }

def optimize (optimizations : List Optimization) (P : ProgramPartition F G R) :
    Option (ProgramPartition F G R) :=
  (PartitionOptimizer.run (A.environment P.callgraph) P.securePartition P.insecurePartition
    optimizations).map fun (secure, insecure) =>
      { P with securePartition := secure, insecurePartition := insecure }

end ProgramPartition

/-- `ProgramPartitionAnalysis::runOnModule`, with the annotations that the parser has returned and the
name given on the command line. -/
def runOnModule (annotations : Annotations F) (optName : String) :
    Option (ProgramPartition F G R) :=
  (ProgramPartition.partition A annotations { callgraph := CallGraph.create A.llvmGraph }).bind
    fun P => if optName = "" then some P else P.optimize A (getOptimizations optName).1

end Model

/-! ## The names -/

/-- No name stands for DUPLICATE_FUNCTIONS and something else. -/
theorem getOptimizations_supported {optName : String} (hname : optName ≠ "function-duplicate") :
    ∀ opt ∈ (getOptimizations optName).1, Supported opt := by
  unfold getOptimizations
  split_ifs <;> simp_all [Supported]

theorem getOptimizations_inBatch {optName : String} (hname : optName ≠ "function-duplicate")
    (hkl : optName ≠ "kl") : ∀ opt ∈ (getOptimizations optName).1, InBatch opt := by
  unfold getOptimizations
  split_ifs <;> simp_all [InBatch]

/-! ## The functions of a document -/

section Document

variable [DecidableEq F] {lib : JsonLibrary J Text Q} {M : Module F G V} {occs annotations : Annotations F}

omit [DecidableEq F] in
theorem getFunction_mem {name : String} {f : F} (h : M.getFunction name = some f) :
    f ∈ M.functions := List.mem_of_find?_eq_some h

omit [DecidableEq F] in
theorem getFunction_foldlM_addAnnotatedArgument {args : List J} {annot annot' : Annotation F}
    (h : args.foldlM (fun annot arg => (lib.toInt? arg).map annot.addAnnotatedArgument) annot =
      some annot') : annot'.getFunction = annot.getFunction :=
  Worklist.foldlM_induct (P := fun a : Annotation F => a.getFunction = annot.getFunction)
    (fun a arg a' _ ha hstep => by
      obtain ⟨i, -, rfl⟩ := Option.map_eq_some_iff.1 hstep
      exact ha) rfl h

omit [DecidableEq F] in
theorem getFunction_parseFunction {annotationStr : String} {annotF : J} {occ : Annotation F}
    (h : JsonAnnotationParser.parseFunction lib M annotationStr annotF = some (some occ)) :
    occ.getFunction ∈ M.functions := by
  unfold JsonAnnotationParser.parseFunction at h
  simp only [Option.bind_eq_bind, Option.bind_eq_some_iff] at h
  obtain ⟨key, -, functionName, -, h⟩ := h
  split at h
  · cases h
  · next function hfunction =>
    obtain ⟨annot, hargs, h⟩ := Option.bind_eq_some_iff.1 h
    cases h
    have hsame : annot.getFunction = function := by
      unfold JsonAnnotationParser.parseArguments at hargs
      split at hargs
      · cases hargs
        rfl
      · exact getFunction_foldlM_addAnnotatedArgument hargs
    have hkeep : (JsonAnnotationParser.parseReturn lib annotF annot).getFunction =
        annot.getFunction := by
      unfold JsonAnnotationParser.parseReturn
      split <;> rfl
    rw [hkeep, hsame]
    exact getFunction_mem hfunction

theorem exists_of_mem_mapM {α β : Type} {f : α → Option β} {l : List α} {r : List β}
    (h : l.mapM f = some r) {b : β} (hb : b ∈ r) : ∃ a ∈ l, f a = some b := by
  induction l generalizing r with
  | nil =>
    cases h
    cases hb
  | cons a l ih =>
    rw [List.mapM_cons] at h
    obtain ⟨b', hb', h⟩ := Option.bind_eq_some_iff.1 h
    obtain ⟨bs, hbs, h⟩ := Option.bind_eq_some_iff.1 h
    cases h
    rcases List.mem_cons.1 hb with rfl | hb
    · exact ⟨a, List.mem_cons_self, hb'⟩
    · obtain ⟨a', ha', hfa⟩ := ih hbs hb
      exact ⟨a', List.mem_cons_of_mem a ha', hfa⟩

omit [DecidableEq F] in
/-- Every occurrence is of a function of the module. -/
theorem getFunction_occurrences {document : J}
    (h : JsonAnnotationParser.occurrences lib M document = some occs) :
    ∀ occ ∈ occs, occ.getFunction ∈ M.functions := by
  intro occ hocc
  obtain ⟨items, hitems, h⟩ := Option.bind_eq_some_iff.1 h
  cases h
  obtain ⟨item, hitem, hocc⟩ := List.mem_flatten.1 hocc
  obtain ⟨annotItem, -, hitem⟩ := exists_of_mem_mapM hitems hitem
  unfold JsonAnnotationParser.itemOccurrences at hitem
  simp only [Option.bind_eq_bind, Option.bind_eq_some_iff] at hitem
  obtain ⟨str, -, annotationStr, -, functions, -, found, hfound, h⟩ := hitem
  cases h
  obtain ⟨annotF, -, hparse⟩ := exists_of_mem_mapM hfound (List.reduceOption_mem_iff.1 hocc)
  exact getFunction_parseFunction hparse

/-- Every function of the document is annotated. -/
theorem exists_annotated
    (h : JsonAnnotationParser.AllAnnotations (occs.foldl JsonAnnotationParser.insert [])
      annotations) {occ : Annotation F} (hocc : occ ∈ occs) :
    ∃ annot ∈ annotations, annot.getFunction = occ.getFunction := by
  have hkey : occ.key ∈ (NumberedMap.fill Annotation.key (fun annot _ => annot) occs).map (·.1) :=
    NumberedMap.mem_keys_fill.2 (List.mem_map_of_mem hocc)
  obtain ⟨e, he, hek⟩ := List.mem_map.1 hkey
  obtain ⟨before, first, after, heq, hnew, rfl⟩ := NumberedMap.mem_fill_iff.1 he
  exact ⟨first, (JsonAnnotationParser.mem_of_allAnnotations h first).2 ⟨before, after, heq, hnew⟩,
    congrArg Prod.snd hek⟩

theorem mem_occurrences
    (h : JsonAnnotationParser.AllAnnotations (occs.foldl JsonAnnotationParser.insert [])
      annotations) {annot : Annotation F} (hannot : annot ∈ annotations) : annot ∈ occs := by
  obtain ⟨before, after, rfl, -⟩ := (JsonAnnotationParser.mem_of_allAnnotations h annot).1 hannot
  exact List.mem_append_right _ List.mem_cons_self

end Document

/-! ## The pass -/

section Pass

variable [DecidableEq F] [DecidableEq G] [DecidableEq V] [Field R] [LinearOrder R]
  {A : AnalysisInput F G V N R} {annotations : Annotations F} {secure insecure : Partition F G}
  {occs : Annotations F} {optName : String}

/-- What the module, its dependence graph and LLVM's call graph have to do with each other. -/
structure AnalysisInput.Consistent (A : AnalysisInput F G V N R) : Prop where
  callSites : A.pdg.CallSitesExact A.module
  functionsIn : A.pdg.FunctionsIn A.module
  llvmFunctions : ∀ f, A.llvmGraph.HasFunction f ↔ f ∈ A.module.functions
  records : ∀ f g, A.llvmGraph.Records f g → ∃ callSite ∈ A.pdg.getCallSites g,
    callSite.getCaller = f

/-- The result `P` for a document with the functions `occs`, of which the partitioner makes
`secure`. -/
structure Sound (A : AnalysisInput F G V N R) (occs : Annotations F) (secure : Partition F G)
    (optName : String) (P : ProgramPartition F G R) : Prop where
  node : ∀ f, P.callgraph.hasFunctionNode f = true ↔ f ∈ A.module.functions
  annotated : ∀ occ ∈ occs, occ.getFunction ∈ P.securePartition.partition
  kept : secure.partition ⊆ P.securePartition.partition
  related : ∀ f ∈ P.securePartition.relatedFunctions, f ∈ A.module.functions
  complementary :
    Complementary A.module P.securePartition.partition P.insecurePartition.partition
  secureInterfaced : Interfaced A.module A.pdg P.securePartition
  insecureInterfaced : Interfaced A.module A.pdg P.insecurePartition
  secureGlobals : ∀ g ∈ P.securePartition.partitionGlobals, g ∈ A.module.globals
  insecureGlobals : ∀ g ∈ P.insecurePartition.partitionGlobals, g ∈ A.module.globals
  mediated : Mediated A.pdg P.securePartition P.insecurePartition
  moved : optName ≠ "kl" → ∀ f, f ∈ P.securePartition.partition ↔
    f ∈ secure.partition ∨ ∃ opt ∈ (getOptimizations optName).1,
      MovedBy (A.environment P.callgraph) secure f opt

omit [DecidableEq G] [DecidableEq V] [LinearOrder R] in
theorem hasFunctionNode_create (hA : A.Consistent) (f : F) :
    (CallGraph.create A.llvmGraph : CallGraph F R).hasFunctionNode f = true ↔
      f ∈ A.module.functions := by
  rw [CallGraph.hasFunctionNode_iff, ← List.mem_map, CallGraph.functions_create, hA.llvmFunctions]

/-- The weights can be assigned. -/
theorem exists_partition (hA : A.Consistent)
    (hannotations : ∀ annot ∈ annotations, annot.getFunction ∈ A.module.functions)
    (hpartition : Partitioner.partition A.module A.pdg A.fuel annotations =
      some (secure, insecure)) :
    ∃ callgraph, ProgramPartition.partition A annotations
        { callgraph := CallGraph.create A.llvmGraph } =
          some { callgraph := callgraph, securePartition := secure, insecurePartition := insecure } ∧
      ∀ f, callgraph.hasFunctionNode f = true ↔ f ∈ A.module.functions := by
  have hparts := Partitioner.partitioned hpartition
  obtain ⟨calls, callgraph, -, -, hassign, hkept, -⟩ :=
    WeightAssigningHelper.exists_assignWeights_create A.module A.loopInfoGetter A.order A.llvmGraph
      (fun f hf => by
        obtain ⟨annot, hannot, rfl⟩ := (hparts.mem_secure f).1 hf
        exact (hasFunctionNode_create hA _).2 (hannotations annot hannot))
      (fun f hf => (hasFunctionNode_create hA f).2
        (Partitioner.relatedIn_partition hA.functionsIn hpartition f hf))
      (fun f g hrecord _ => hA.records f g hrecord)
  refine ⟨callgraph, ?_, fun f => ?_⟩
  · unfold ProgramPartition.partition
    rw [hpartition, Option.bind_some]
    dsimp only
    rw [hassign, Option.map_some]
  · rw [hkept.hasFunctionNode, hasFunctionNode_create hA]

omit [Field R] [LinearOrder R] in
/-- The globals that the partitioner finds are those of the module. -/
theorem globals_of_partition (hpartition : Partitioner.partition A.module A.pdg A.fuel annotations =
    some (secure, insecure)) : (∀ g ∈ secure.partitionGlobals, g ∈ A.module.globals) ∧
      ∀ g ∈ insecure.partitionGlobals, g ∈ A.module.globals := by
  obtain ⟨hsecure, hinsecure⟩ := Partitioner.partitionGlobals_partition hpartition
  exact ⟨fun g hg => ((mem_partitionGlobals hsecure g).1 hg).1,
    fun g hg => ((mem_partitionGlobals hinsecure g).1 hg).1⟩

omit [DecidableEq V] in
/-- A run adds no globals. -/
theorem globals_subset_of_run {env : Environment F G V N R} {opts : List Optimization}
    {S I : Partition F G} (h : run env secure insecure opts = some (S, I)) :
    S.partitionGlobals ⊆ secure.partitionGlobals ∧
      I.partitionGlobals ⊆ insecure.partitionGlobals := by
  by_cases hglobals : .globalsMoveTo ∈ opts
  · obtain ⟨hS, hI⟩ := globals_of_run_globalsMoveTo hglobals h
    rw [hS, hI]
    exact ⟨Finset.sdiff_subset, Finset.sdiff_subset⟩
  · obtain ⟨hS, hI⟩ := globals_of_run hglobals h
    rw [hS, hI]
    exact ⟨Finset.Subset.refl _, Finset.Subset.refl _⟩

/-- What a run of the optimiser makes of the partitions. -/
theorem sound_optimize (hA : A.Consistent)
    (hoccs : ∀ occ ∈ occs, occ.getFunction ∈ secure.partition)
    (hannotations : ∀ annot ∈ annotations, annot.getFunction ∈ A.module.functions)
    (hpartition : Partitioner.partition A.module A.pdg A.fuel annotations =
      some (secure, insecure)) {callgraph : CallGraph F R}
    (hnode : ∀ f, callgraph.hasFunctionNode f = true ↔ f ∈ A.module.functions)
    (hname : optName ≠ "function-duplicate") :
    ∃ P, ProgramPartition.optimize A (getOptimizations optName).1
        { callgraph := callgraph, securePartition := secure, insecurePartition := insecure } =
          some P ∧ Sound A occs secure optName P := by
  have hparts := Partitioner.partitioned hpartition
  have hcompl := hparts.complementary hannotations
  have hsplits : Splits (A.environment callgraph) secure insecure := splits_of_partition
    hA.functionsIn (fun f hf _ => hA.callSites.hasFunctionPDG f hf) hnode hpartition
  obtain ⟨s, S, I, hs, hpurged, hrun⟩ :=
    exists_run hsplits.ready (getOptimizations_supported hname)
  have hwithin := within_of_collected hs hA.callSites hnode hcompl hparts.secure_interfaced
    hparts.insecure_interfaced (Partitioner.relatedIn_partition hA.functionsIn hpartition)
  have happlied := applied_of_collected hs
  have hcompl' := hpurged.complementary happlied hwithin hcompl
  have hkept : secure.partition ⊆ S.partition := hpurged.secure_eq ▸ happlied.secure_sub
  refine ⟨{ callgraph := callgraph, securePartition := S, insecurePartition := I }, ?_,
    hnode, fun occ hocc => hkept (hoccs occ hocc), hkept, fun f hf => ?_, hcompl',
    hpurged.secure_interfaced, hpurged.insecure_interfaced,
    fun g hg => (globals_of_partition hpartition).1 g ((globals_subset_of_run hrun).1 hg),
    fun g hg => (globals_of_partition hpartition).2 g ((globals_subset_of_run hrun).2 hg), ?_,
    fun hkl => ?_⟩
  · unfold ProgramPartition.optimize
    dsimp only
    rw [hrun, Option.map_some]
  · rw [← Finmap.mem_keys, hpurged.related_eq] at hf
    exact List.mem_toFinset.1 (hwithin.related (Finset.mem_sdiff.1 hf).1)
  · exact mediated_of_complementary hA.callSites hcompl' hpurged.secure_interfaced
      hpurged.insecure_interfaced
  · exact (runsBatch_of_run (getOptimizations_inBatch hname hkl) hsplits.insecure_out hrun).mem_secure

omit [DecidableEq V] in
/-- Its first two objects are missing, so the assertions of DUPLICATE_FUNCTIONS fail. -/
theorem optimize_function_duplicate (P : ProgramPartition F G R) :
    P.optimize A (getOptimizations "function-duplicate").1 = none := rfl

/-- The pass on the annotations of a document. -/
theorem runOnModule_cases {lib : JsonLibrary J Text Q} (hA : A.Consistent) {document : J}
    (hoccs : JsonAnnotationParser.occurrences lib A.module document = some occs)
    (hall : JsonAnnotationParser.AllAnnotations (occs.foldl JsonAnnotationParser.insert [])
      annotations)
    (hpartition : Partitioner.partition A.module A.pdg A.fuel annotations =
      some (secure, insecure)) :
    ((∃ P, runOnModule A annotations optName = some P) ↔ optName ≠ "function-duplicate") ∧
      ∀ P, runOnModule A annotations optName = some P → Sound A occs secure optName P := by
  have hparts := Partitioner.partitioned hpartition
  have hannotations : ∀ annot ∈ annotations, annot.getFunction ∈ A.module.functions :=
    fun annot hannot => getFunction_occurrences hoccs annot (mem_occurrences hall hannot)
  have hsecure : ∀ occ ∈ occs, occ.getFunction ∈ secure.partition := by
    intro occ hocc
    obtain ⟨annot, hannot, hsame⟩ := exists_annotated hall hocc
    exact (hparts.mem_secure _).2 ⟨annot, hannot, hsame⟩
  obtain ⟨callgraph, hpart, hnode⟩ := exists_partition hA hannotations hpartition
  unfold runOnModule
  rw [hpart, Option.bind_some]
  by_cases hempty : optName = ""
  · have hcompl := hparts.complementary hannotations
    subst hempty
    rw [if_pos rfl]
    refine ⟨iff_of_true ⟨_, rfl⟩ (by decide), ?_⟩
    intro P hP
    obtain rfl := Option.some.inj hP
    exact ⟨hnode, hsecure, Finset.Subset.refl _, Partitioner.relatedIn_partition hA.functionsIn hpartition,
      hcompl, hparts.secure_interfaced, hparts.insecure_interfaced,
      (globals_of_partition hpartition).1, (globals_of_partition hpartition).2,
      mediated_of_complementary hA.callSites hcompl hparts.secure_interfaced
        hparts.insecure_interfaced, fun _ f => by simp [getOptimizations]⟩
  · rw [if_neg hempty]
    by_cases hname : optName = "function-duplicate"
    · subst hname
      rw [optimize_function_duplicate]
      simp
    · obtain ⟨P, hrun, hsound⟩ := sound_optimize hA hsecure hannotations hpartition hnode hname
      rw [hrun]
      refine ⟨iff_of_true ⟨P, rfl⟩ hname, ?_⟩
      intro P' hP
      exact Option.some.inj hP ▸ hsound

/-- **The pass on a document**, once the walks of its annotations have ended. -/
theorem runOnModule_ends_iff (lib : JsonLibrary J Text Q) (A : AnalysisInput F G V N R)
    (hA : A.Consistent) {text : Text} {document : J} (hparse : lib.parse text = some document)
    (hoccs : JsonAnnotationParser.occurrences lib A.module document = some occs) (optName : String) :
    ∃ sets, JsonAnnotationParser.parseAnnotations lib A.module (some text) = some sets ∧
      ∀ annotations, JsonAnnotationParser.AllAnnotations sets annotations →
        ∀ secure insecure, Partitioner.partition A.module A.pdg A.fuel annotations =
            some (secure, insecure) →
          ((∃ P, runOnModule A annotations optName = some P) ↔ optName ≠ "function-duplicate") ∧
            ∀ P, runOnModule A annotations optName = some P → Sound A occs secure optName P := by
  refine ⟨occs.foldl JsonAnnotationParser.insert [], ?_, ?_⟩
  · rw [JsonAnnotationParser.parseAnnotations_eq lib A.module hparse, hoccs, Option.map_some]
  · intro annotations hall secure insecure hpartition
    exact runOnModule_cases hA hoccs hall hpartition

end Pass

/-! The chain, with a document that annotates `work`. -/

def chainLLVMGraph : LLVMCallGraph ChainFunction where
  nodes := [(none, [some .main]), (some .main, [some .work]), (some .work, [some .log]),
    (some .log, [none])]

def chainInput : AnalysisInput ChainFunction Empty ChainCall ChainNode ℚ where
  module := chainModule
  pdg := chainPDG
  llvmGraph := chainLLVMGraph
  loopInfoGetter := fun _ => none
  order := chainEnvironment.order
  solve := fun _ => none
  fuel := 1

def chainDocument : Json Int :=
  .array [.object [("annotation", .string "secure"),
    ("functions", .array [.object [("function", .string "work")]])]]

theorem chain_consistent : chainInput.Consistent where
  callSites := chain_callSitesExact
  functionsIn := chain_functionsIn
  llvmFunctions := fun f => by
    refine iff_of_true ?_ (by cases f <;> decide)
    cases f with
    | main => exact ⟨_, .tail _ (.head _), .inl rfl⟩
    | work => exact ⟨_, .tail _ (.tail _ (.head _)), .inl rfl⟩
    | log => exact ⟨_, .tail _ (.tail _ (.tail _ (.head _))), .inl rfl⟩
  records := by
    rintro f g ⟨node, hnode, hf, hg⟩
    simp only [chainInput, chainLLVMGraph, List.mem_cons, List.not_mem_nil, or_false] at hnode
    rcases hnode with rfl | rfl | rfl | rfl
    · cases hf
    · cases hf
      cases List.mem_singleton.1 hg
      exact ⟨_, List.mem_cons_self, rfl⟩
    · cases hf
      cases List.mem_singleton.1 hg
      exact ⟨_, List.mem_cons_self, rfl⟩
    · cases List.mem_singleton.1 hg

theorem chain_runOnModule_ends : ∃ annotations P,
    runOnModule chainInput annotations "local" = some P ∧ .work ∈ P.securePartition.partition ∧
      Mediated chainPDG P.securePartition P.insecurePartition := by
  have hparse : (Json.library id).parse chainDocument = some chainDocument := rfl
  have hoccs : JsonAnnotationParser.occurrences (Json.library id) chainInput.module chainDocument =
      some [workAnnotated] := rfl
  obtain ⟨sets, hsets, hpass⟩ :=
    runOnModule_ends_iff (Json.library id) chainInput chain_consistent hparse hoccs "local"
  obtain ⟨secure, insecure, hpartition⟩ := chain_partition
  cases hsets
  obtain ⟨hends, hsound⟩ := hpass [workAnnotated] (List.Perm.refl _) secure insecure hpartition
  obtain ⟨P, hP⟩ := hends.2 (by decide)
  exact ⟨_, P, hP, (hsound P hP).annotated _ List.mem_cons_self, (hsound P hP).mediated⟩

end Vazgen
