import Mathlib.Data.Finset.Sort
import Mathlib.Data.String.Basic
import Vazgen.Analysis.ProgramPartitionAnalysis
import Vazgen.Transforms.CallStacks

/-!
# From annotations to two modules

The annotated module is partitioned, the partitions are optimised, and each becomes a module of its
own.

**`extracted_calls`**: whatever optimisation runs in between, the two modules and the generated
functions go through the calls of the original program, and in no run does an annotated function get
executed outside the enclave, whose module alone has its definition.
-/

namespace Vazgen

open PartitionExtractorPass Simulation

variable {G V N Q R J Text T : Type}

/-- The module that the analysis is run on is the one that is split: it has the same functions and
globals, and the graph knows its calls. -/
structure AnalysisInput.Describes (A : AnalysisInput String G V N R) (values : ModuleValues G V T)
    (M : LLVMModule T) : Prop where
  functions : A.module.functions = M.functions
  globals : A.module.globals = values.globals
  callSite : ∀ f ∈ M.functions, ∀ c ∈ M.callees f,
    ∃ callSite ∈ A.pdg.getCallSites c, callSite.getCaller = f

section Program

variable [DecidableEq G] [DecidableEq V] [DecidableEq T] [Field R] [LinearOrder R]
  {A : AnalysisInput String G V N R} {values : ModuleValues G V T} {M : LLVMModule T}
  {occs : Annotations String} {secure : Partition String G} {optName : String}
  {P : ProgramPartition String G R} {r : Result G}

omit [DecidableEq G] [DecidableEq V] [DecidableEq T] in
/-- The partitions are as the extraction needs them. -/
theorem Sound.analysed (h : Sound A occs secure optName P) (hA : A.Consistent)
    (hdescribes : A.Describes values M) :
    Analysed values A.pdg M P.securePartition P.insecurePartition :=
  analysed_of_interfaced hdescribes.functions hA.callSites hdescribes.callSite h.complementary
    (fun g hg => hdescribes.globals ▸ h.secureGlobals g hg) h.secureInterfaced h.insecureInterfaced

omit [DecidableEq G] [DecidableEq V] [DecidableEq T] in
theorem Sound.cover (h : Sound A occs secure optName P) (hdescribes : A.Describes values M) :
    ∀ f ∈ M.functions, f ∈ P.securePartition.partition ∨ f ∈ P.insecurePartition.partition :=
  fun f hf => h.complementary.cover f (hdescribes.functions ▸ hf)

omit [DecidableEq G] [DecidableEq V] [DecidableEq T] in
/-- No frame is on the wrong side. -/
theorem notMem_stack {M' : LLVMModule T} {secure insecure : Partition String G}
    (h : PartitionExtractorPass.Split M M' secure insecure r) {f : String} (hf : f ∈ M.functions)
    (hsecure : f ∈ secure.partition) {stack : List String} {stack' : List Frame}
    (hstack : stack'.filter r.isOwn = stack.map (place secure)) : ⟨false, f⟩ ∉ stack' := by
  intro hmem
  have hown : r.isOwn ⟨false, f⟩ = true := decide_eq_true (h.own f hf)
  have hplaced := List.mem_filter.2 ⟨hmem, hown⟩
  rw [hstack] at hplaced
  obtain ⟨g, -, hplace⟩ := List.mem_map.1 hplaced
  obtain ⟨hside, rfl⟩ := Frame.mk.inj hplace
  rw [decide_eq_true hsecure] at hside
  cases hside

variable {order : IterationOrder G} {makeUniqueName : List String → String → String} {fuel : Nat}

/-- **The program after partitioning and extraction.** -/
theorem extracted_calls (lib : JsonLibrary J Text Q) (hA : A.Consistent)
    (hdescribes : A.Describes values M) (hM : WellFormed values M)
    (hfree : ∀ f ∈ M.functions, "insecure_" ++ f ∉ M.functions ∧ "insecure_" ++ f ∉ values.globalNames)
    (hfresh : SettersFresh values M) {document : J} {annotations : Annotations String}
    (hoccs : JsonAnnotationParser.occurrences lib A.module document = some occs)
    (hall : JsonAnnotationParser.AllAnnotations (occs.foldl JsonAnnotationParser.insert [])
      annotations) {insecure : Partition String G}
    (hpartition : Partitioner.partition A.module A.pdg A.fuel annotations =
      some (secure, insecure))
    (hrun : Vazgen.runOnModule A annotations optName = some P)
    (hextract : PartitionExtractorPass.runOnModule values A.pdg order makeUniqueName fuel M
      P.securePartition P.insecurePartition = some r) (entry : String) (hentry : entry ∈ M.functions) :
    (∀ events stack, Run (StackStep M.Calls) [entry] events stack →
      Run (StackStep r.Calls) [place P.securePartition entry]
        (events.map (Event.map (place P.securePartition)))
        (stack.map (place P.securePartition))) ∧
    (∀ events' stack', Run (StackStep r.Calls) [place P.securePartition entry] events' stack' →
      (∃ events stack, Run (StackStep M.Calls) [entry] events stack ∧
        events'.filter (fun e => r.isOwn e.frame) =
          events.map (Event.map (place P.securePartition)) ∧
        stack'.filter r.isOwn = stack.map (place P.securePartition)) ∧
      ∀ occ ∈ occs, ⟨false, occ.getFunction⟩ ∉ stack') ∧
    ∀ occ ∈ occs, ∀ L, r.appLib = some L → ¬ L.Defines occ.getFunction := by
  have hsound := (runOnModule_cases hA hoccs hall hpartition).2 P hrun
  have hparts := hsound.analysed hA hdescribes
  have hnames : NamesFree values M P.insecurePartition := fun f hf =>
    hfree f (hparts.insecure_mem f hf)
  obtain ⟨M', hsplit⟩ := split_of_runOnModule hM hparts hnames hfresh
    (fun g hg => hdescribes.globals ▸ hsound.insecureGlobals g hg) hextract
  obtain ⟨hforward, hbackward⟩ := (hsplit.embeds hM hparts (hsound.cover hdescribes)).run_iff
    (s := [entry]) fun f hf => List.mem_singleton.1 hf ▸ hentry
  refine ⟨hforward, fun events' stack' hrun' => ?_, fun occ hocc L hL hdefines => ?_⟩
  · obtain ⟨events, stack, hrun₀, hevents, hstack⟩ := hbackward events' stack' hrun'
    refine ⟨⟨events, stack, hrun₀, hevents, hstack⟩, fun occ hocc => ?_⟩
    have hsecure := hsound.annotated occ hocc
    exact notMem_stack hsplit (hparts.secure_mem _ hsecure) hsecure hstack
  · have hsecure := hsound.annotated occ hocc
    have hinsecure := ((hsplit.slice false L hL).defines _ (hparts.secure_mem _ hsecure)).1 hdefines
    exact hparts.disjoint _ hsecure hinsecure.1

end Program

/-! The functions `main`, `work` and `log`, with a document that annotates `work`. -/

inductive SecretNode
  | key
  | store
  | workCall
  | logCall
  | work
  | log
deriving DecidableEq

instance : Fintype SecretNode where
  elems := {.key, .store, .workCall, .logCall, .work, .log}
  complete n := by cases n <;> decide

/-- The functions of the module come first. -/
def secretFunctionOrder : IterationOrder String where
  list s := secretModule.functions.filter (fun f => f ∈ s) ++
    (s.filter fun f => f ∉ secretModule.functions).sort
  nodup s := by
    refine List.nodup_append.2 ⟨List.Nodup.filter _ (by decide), Finset.sort_nodup _ _, ?_⟩
    rintro f hf g hg rfl
    exact (Finset.mem_filter.1 ((Finset.mem_sort _).1 hg)).2 (List.mem_filter.1 hf).1
  mem s f := by
    rw [List.mem_append, List.mem_filter, Finset.mem_sort, Finset.mem_filter, decide_eq_true_iff]
    tauto

def secretInput : AnalysisInput String Unit SecretValue SecretNode ℚ where
  module :=
    { functions := ["main", "work", "log"]
      globals := [()]
      getName := id
      isDeclaration := fun _ => false
      isIntrinsic := fun _ => false
      argTypes := fun _ => []
      getReturnType := fun _ => .void
      functionSize := fun _ => 1
      returnInsts := fun _ => []
      valueClass := fun
        | .key => .other
        | .store => .storeInst .key .key
        | .call => .callInst }
  pdg :=
    { kind := fun
        | .key => .globalVariable
        | .store => .instruction "work"
        | .workCall => .instruction "main"
        | .logCall => .instruction "work"
        | .work => .function "work"
        | .log => .function "log"
      isLLVMNode := fun _ => true
      getNodeValue := fun
        | .key => some .key
        | .store => some .store
        | .workCall => some .call
        | .logCall => some .call
        | _ => none
      getParent := fun
        | .store => some "work"
        | .workCall => some "main"
        | .logCall => some "work"
        | _ => none
      isPointerArgOperand := fun _ => false
      outEdges := fun
        | .key => [{ getSource := .key, getDestination := .store, isControlEdge := false }]
        | .workCall => [{ getSource := .workCall, getDestination := .work, isControlEdge := true }]
        | .logCall => [{ getSource := .logCall, getDestination := .log, isControlEdge := true }]
        | _ => []
      inEdges := fun _ => []
      hasFunctionPDG := fun _ => true
      getCallSites := secretPDG.getCallSites
      llvmNodes := fun f =>
        if f = "main" then [(.call, .workCall)]
        else if f = "work" then [(.store, .store), (.call, .logCall)]
        else []
      getNode := fun _ _ => none
      getFormalArgNode := fun _ _ => none
      getGlobalVariableNode := fun _ => some .key }
  llvmGraph :=
    { nodes := [(none, [some "main"]), (some "main", [some "work"]), (some "work", [some "log"]),
        (some "log", [none])] }
  loopInfoGetter := fun _ => none
  order := secretFunctionOrder
  solve := fun _ => none
  fuel := 1

def secretDocument : Json Int :=
  .array [.object [("annotation", .string "secure"),
    ("functions", .array [.object [("function", .string "work")]])]]

def secretAnnotated : Annotation String where
  getAnnotation := "secure"
  getFunction := "work"

theorem secret_callSitesExact : secretInput.pdg.CallSitesExact secretInput.module where
  hasFunctionPDG _ _ := rfl
  caller_mem := by decide
  callee_mem := by decide
  callSite_iff := by
    intro f hf g hg v
    cases v <;> revert f g <;> decide

theorem secret_consistent : secretInput.Consistent where
  callSites := secret_callSitesExact
  functionsIn := by
    constructor <;> intro n f hn <;> cases n <;> cases hn <;> decide
  llvmFunctions := fun f => by
    constructor
    · rintro ⟨node, hnode, h⟩
      simp only [secretInput, List.mem_cons, List.not_mem_nil, or_false] at hnode
      rcases hnode with rfl | rfl | rfl | rfl <;> simp at h <;>
        rcases h with rfl | rfl <;> decide
    · intro hf
      simp only [secretInput, List.mem_cons, List.not_mem_nil, or_false] at hf
      rcases hf with rfl | rfl | rfl
      · exact ⟨_, .tail _ (.head _), .inl rfl⟩
      · exact ⟨_, .tail _ (.tail _ (.head _)), .inl rfl⟩
      · exact ⟨_, .tail _ (.tail _ (.tail _ (.head _))), .inl rfl⟩
  records := by
    rintro f g ⟨node, hnode, hf, hg⟩
    simp only [secretInput, List.mem_cons, List.not_mem_nil, or_false] at hnode
    rcases hnode with rfl | rfl | rfl | rfl
    · cases hf
    · cases hf
      cases List.mem_singleton.1 hg
      exact ⟨_, List.mem_cons_self, rfl⟩
    · cases hf
      cases List.mem_singleton.1 hg
      exact ⟨_, List.mem_cons_self, rfl⟩
    · cases List.mem_singleton.1 hg

theorem secret_describes : secretInput.Describes secretValues secretModule where
  functions := rfl
  globals := rfl
  callSite := by decide

/-- The analysis moves `log` into the enclave, and the partitions that it ends with can be
extracted. -/
theorem secret_extract : ∃ secure insecure P r,
    Partitioner.partition secretInput.module secretInput.pdg secretInput.fuel [secretAnnotated] =
        some (secure, insecure) ∧
      Vazgen.runOnModule secretInput [secretAnnotated] "function-move" = some P ∧
      ("log" ∉ secure.partition ∧ "log" ∈ P.securePartition.partition) ∧
      PartitionExtractorPass.runOnModule secretValues secretInput.pdg secretOrder
        (fun _ name => name ++ ".1") 3 secretModule P.securePartition P.insecurePartition =
          some r := by
  have hsome : ((Partitioner.partition secretInput.module secretInput.pdg secretInput.fuel
      [secretAnnotated]).bind fun parts =>
        (Vazgen.runOnModule secretInput [secretAnnotated] "function-move").bind fun P =>
          if "log" ∉ parts.1.partition ∧ "log" ∈ P.securePartition.partition then
            PartitionExtractorPass.runOnModule secretValues secretInput.pdg secretOrder
              (fun _ name => name ++ ".1") 3 secretModule P.securePartition P.insecurePartition
          else none).isSome = true := by
    decide +kernel
  obtain ⟨r, hr⟩ := Option.isSome_iff_exists.1 hsome
  obtain ⟨⟨secure, insecure⟩, hpartition, hr⟩ := Option.bind_eq_some_iff.1 hr
  obtain ⟨P, hrun, hr⟩ := Option.bind_eq_some_iff.1 hr
  obtain ⟨hmoved, hextract⟩ := Option.ite_none_right_eq_some.1 hr
  exact ⟨secure, insecure, P, r, hpartition, hrun, hmoved, hextract⟩

/-- Once `log` has been moved into the enclave, no run of the extracted program has `work` in the
application. -/
theorem secret_extracted_calls : ∃ annotations P r,
    Vazgen.runOnModule secretInput annotations "function-move" = some P ∧
      "log" ∈ P.securePartition.partition ∧
      PartitionExtractorPass.runOnModule secretValues secretInput.pdg secretOrder
        (fun _ name => name ++ ".1") 3 secretModule P.securePartition P.insecurePartition = some r ∧
      ∀ events stack, Run (StackStep r.Calls) [place P.securePartition "main"] events stack →
        ⟨false, "work"⟩ ∉ stack := by
  have hoccs : JsonAnnotationParser.occurrences (Json.library id) secretInput.module secretDocument =
      some [secretAnnotated] := rfl
  have hall : JsonAnnotationParser.AllAnnotations
      ([secretAnnotated].foldl JsonAnnotationParser.insert []) [secretAnnotated] := List.Perm.refl _
  obtain ⟨secure, insecure, P, r, hpartition, hrun, hmoved, hextract⟩ := secret_extract
  refine ⟨_, P, r, hrun, hmoved.2, hextract, fun events stack h => ?_⟩
  exact ((extracted_calls (Json.library id) secret_consistent secret_describes secret_wellFormed
    (by decide) secret_settersFresh hoccs hall hpartition hrun hextract "main"
    (by decide)).2.1 events stack h).2 secretAnnotated List.mem_cons_self

end Vazgen
