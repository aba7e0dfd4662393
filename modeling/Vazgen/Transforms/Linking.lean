import Vazgen.Analysis.PartitionerSets
import Vazgen.CodeGen.SGXCodeGenerator
import Vazgen.Lib.Decimal
import Vazgen.Transforms.PartitionExtractor

/-!
# Linking the two extracted modules

The in-interfaces and the names to be changed are those of the partitions before the setters are
added.  So a setter that is called across the partitions is in no interface, and the enclave
declares it under its own name (`secretStore_not_linked`).

**`runOnModule_linked_iff`**: the two modules link exactly if every setter that is called was a
mediated function before, and every insecure function that the enclave calls and only declares finds
its new name free when the renaming comes to it.
-/

namespace Vazgen

variable {G V N T : Type}

namespace PartitionExtractorPass

open GlobalVariableExtractorHelper PartitionExtractor SGXCodeGenerator

/-! ## When the modules link -/

/-- How the functions and the values of a module fit together. -/
structure WellFormed (values : ModuleValues G V T) (M : LLVMModule T) : Prop where
  distinct : ∀ f ∈ M.functions, f ∉ values.globalNames
  callees : ∀ f ∈ M.functions, ∀ c ∈ M.callees f, c ∈ M.functions
  intrinsic : ∀ f ∈ M.functions, isIntrinsic f = true → M.isDeclaration f = true
  /-- a store stands in a definition -/
  store : ∀ v w pointer, values.valueClass v = .storeInst w pointer →
    values.getFunction v ∈ M.functions ∧ M.isDeclaration (values.getFunction v) = false

/-- The graph knows the calls of the module, and the two partitions are as the analysis leaves
them: disjoint, with computed in-interfaces. -/
structure Analysed (values : ModuleValues G V T) (pdg : PDG String G V N) (M : LLVMModule T)
    (secure insecure : Partition String G) : Prop where
  hasFunctionPDG : ∀ f ∈ M.functions, pdg.hasFunctionPDG f = true
  callSite : ∀ f ∈ M.functions, ∀ c ∈ M.callees f,
    ∃ callSite ∈ pdg.getCallSites c, callSite.getCaller = f
  secure_mem : ∀ f ∈ secure.partition, f ∈ M.functions
  insecure_mem : ∀ f ∈ insecure.partition, f ∈ M.functions
  disjoint : ∀ f ∈ secure.partition, f ∉ insecure.partition
  globals : ∀ g ∈ secure.partitionGlobals, g ∈ values.globals
  secure_in : secure.inInterface = computeInInterface pdg secure.partition
  insecure_in : insecure.inInterface = computeInInterface pdg insecure.partition

/-- Two complementary partitions with their interfaces are as they should be, if the graph's call
sites are exact and include the calls of the module. -/
theorem analysed_of_interfaced {values : ModuleValues G V T} {pdg : PDG String G V N}
    {M : LLVMModule T} {M₀ : Module String G V} {secure insecure : Partition String G}
    (hfunctions : M₀.functions = M.functions) (hpdg : pdg.CallSitesExact M₀)
    (hcalls : ∀ f ∈ M.functions, ∀ c ∈ M.callees f,
      ∃ callSite ∈ pdg.getCallSites c, callSite.getCaller = f)
    (hcompl : Complementary M₀ secure.partition insecure.partition)
    (hglobals : ∀ g ∈ secure.partitionGlobals, g ∈ values.globals)
    (hsecure : Interfaced M₀ pdg secure) (hinsecure : Interfaced M₀ pdg insecure) :
    Analysed values pdg M secure insecure where
  hasFunctionPDG f hf := hpdg.hasFunctionPDG f (hfunctions ▸ hf)
  callSite := hcalls
  secure_mem f hf := hfunctions ▸ hcompl.left_mem f hf
  insecure_mem f hf := hfunctions ▸ hcompl.right_mem f hf
  disjoint := hcompl.disjoint
  globals := hglobals
  secure_in := hsecure.inInterface
  insecure_in := hinsecure.inInterface

/-- Every call between the two extracted modules can be resolved: what the enclave calls in the
insecure partition is declared under the name of the function that is generated in its place, and
is generated; the setters that the application calls are entries of the enclave. -/
structure Linked (r : Result G) : Prop where
  enclave : ∀ L, r.enclaveLib = some L → ∀ f, L.Calls f → ¬ L.Defines f →
    f ∈ r.insecurePartition.partition →
      L.Declares f ∧ f ∈ r.insecurePartition.inInterface ∧
        ∀ appF : Function, appF.getName = f → L.getName f =
          (generateAppFunctionInEnclave (generateAppFunctionWrapperInEnclave appF) appF).getName
  app : ∀ L, r.appLib = some L → ∀ f ∈ r.enclaveSetters, L.Calls f →
    f ∈ r.securePartition.inInterface

/-- The names that the declarations get are not taken in the whole program. -/
def NamesFree (values : ModuleValues G V T) (M : LLVMModule T) (insecure : Partition String G) :
    Prop :=
  ∀ f ∈ insecure.partition,
    "insecure_" ++ f ∉ M.functions ∧ "insecure_" ++ f ∉ values.globalNames

/-- Every setter that is called was a function of the right partition or interface before. -/
structure SettersMediated [DecidableEq V] (values : ModuleValues G V T) (pdg : PDG String G V N)
    (secure insecure : Partition String G) : Prop where
  app : ∀ p ∈ (globalsExtractionHelper values pdg secure insecure false).stores,
    setterName values "app" p.1 ∈ secure.partition ∨
      setterName values "app" p.1 ∈ insecure.inInterface
  enclave : ∀ p ∈ (globalsExtractionHelper values pdg secure insecure true).stores,
    setterName values "enclave" p.1 ∈ secure.inInterface

/-- The clone that becomes `enclave_lib`, before its declarations are renamed. -/
def enclaveClone [DecidableEq G] [DecidableEq T] [DecidableEq V] (values : ModuleValues G V T)
    (pdg : PDG String G V N) (order : IterationOrder G) (fuel : Nat) (M : LLVMModule T)
    (secure insecure : Partition String G) : Option (Option SlicedModule) :=
  (instrumentForGlobals (globalsExtractionHelper values pdg secure insecure true) order fuel
    M).bind fun enclave =>
  (instrumentForGlobals (globalsExtractionHelper values pdg secure insecure false) order fuel
    enclave.module).bind fun app =>
  extract values app.module (secure.addFunctions enclave.getGlobalSetters) enclave.getGlobalSetters

/-- Every insecure function that the clone calls and only declares finds its new name free. -/
def NamesFreeInTurn [DecidableEq G] [DecidableEq T] [DecidableEq V] (values : ModuleValues G V T)
    (pdg : PDG String G V N) (order : IterationOrder G)
    (makeUniqueName : List String → String → String) (fuel : Nat) (M : LLVMModule T)
    (secure insecure : Partition String G) : Prop :=
  ∀ L, enclaveClone values pdg order fuel M secure insecure = some (some L) →
    FreeInTurn makeUniqueName "insecure_" insecure L

/-! ## Lemmas -/

section Top

variable [DecidableEq G] [DecidableEq T] [DecidableEq V] {values : ModuleValues G V T}
  {pdg : PDG String G V N} {order : IterationOrder G}
  {makeUniqueName : List String → String → String} {fuel : Nat} {M : LLVMModule T}
  {secure insecure : Partition String G} {r : Result G}

theorem runOnModule_cases
    (h : runOnModule values pdg order makeUniqueName fuel M secure insecure = some r) :
    ∃ enclave app enclaveLib appLib,
      instrumentForGlobals (globalsExtractionHelper values pdg secure insecure true) order fuel M =
        some enclave ∧
      instrumentForGlobals (globalsExtractionHelper values pdg secure insecure false) order fuel
        enclave.module = some app ∧
      extract values app.module (secure.addFunctions enclave.getGlobalSetters)
        enclave.getGlobalSetters = some enclaveLib ∧
      extract values app.module (insecure.addFunctions app.getGlobalSetters)
        app.getGlobalSetters = some appLib ∧
      r = { securePartition := secure.addFunctions enclave.getGlobalSetters
            insecurePartition := insecure.addFunctions app.getGlobalSetters
            enclaveLib := enclaveLib.map fun L =>
              renameInsecureCalls makeUniqueName "insecure_" L insecure
            appLib := appLib
            enclaveSetters := enclave.getGlobalSetters
            appSetters := app.getGlobalSetters } := by
  unfold runOnModule at h
  obtain ⟨enclave, henclave, h⟩ := Option.bind_eq_some_iff.1 h
  obtain ⟨app, happ, h⟩ := Option.bind_eq_some_iff.1 h
  obtain ⟨enclaveLib, henclaveLib, h⟩ := Option.bind_eq_some_iff.1 h
  obtain ⟨appLib, happLib, rfl⟩ := Option.map_eq_some_iff.1 h
  exact ⟨enclave, app, enclaveLib, appLib, henclave, happ, henclaveLib, happLib, rfl⟩

/-- The module that is cloned, after both instrumentations. -/
structure BothInstrumented (values : ModuleValues G V T) (pdg : PDG String G V N)
    (secure insecure : Partition String G) (M M' : LLVMModule T)
    (enclaveSetters appSetters : Finset String) : Prop where
  mem_enclaveSetters : ∀ f, f ∈ enclaveSetters ↔
    ∃ p ∈ (globalsExtractionHelper values pdg secure insecure true).stores,
      f = setterName values "enclave" p.1
  mem_appSetters : ∀ f, f ∈ appSetters ↔
    ∃ p ∈ (globalsExtractionHelper values pdg secure insecure false).stores,
      f = setterName values "app" p.1
  functions : ∀ f, f ∈ M'.functions ↔ f ∈ M.functions ∨ f ∈ enclaveSetters ∨ f ∈ appSetters
  isDeclaration : ∀ f, M'.isDeclaration f = true ↔
    M.isDeclaration f = true ∧ f ∉ enclaveSetters ∧ f ∉ appSetters
  callees : ∀ f ∈ M.functions, ∀ c, c ∈ M'.callees f ↔ c ∈ M.callees f ∨
    (∃ p ∈ (globalsExtractionHelper values pdg secure insecure true).stores,
      f = values.getFunction p.2 ∧ c = setterName values "enclave" p.1) ∨
    ∃ p ∈ (globalsExtractionHelper values pdg secure insecure false).stores,
      f = values.getFunction p.2 ∧ c = setterName values "app" p.1
  distinct : ∀ f ∈ M'.functions, f ∉ values.globalNames
  nodup : M.functions.Nodup → M'.functions.Nodup

theorem bothInstrumented (hM : WellFormed values M) {enclave app : State G T}
    (henclave : instrumentForGlobals (globalsExtractionHelper values pdg secure insecure true)
      order fuel M = some enclave)
    (happ : instrumentForGlobals (globalsExtractionHelper values pdg secure insecure false)
      order fuel enclave.module = some app) :
    BothInstrumented values pdg secure insecure M app.module enclave.getGlobalSetters
      app.getGlobalSetters := by
  have he := instrumentForGlobals_spec hM.distinct henclave
  have ha := instrumentForGlobals_spec (h := globalsExtractionHelper values pdg secure insecure
    false) he.distinct happ
  have hE := he.mem_getGlobalSetters
  have hA := ha.mem_getGlobalSetters
  have hfst : ∀ (stores : Set (G × V)) (name : G → String) (f : String),
      (∃ g ∈ Prod.fst '' stores, f = name g) ↔ ∃ p ∈ stores, f = name p.1 :=
    fun stores name f => Set.exists_mem_image
  have hne : ∀ (stores : Set (G × V)) (name : G → String) (f : String),
      (∀ g ∈ Prod.fst '' stores, f ≠ name g) ↔ ¬ ∃ p ∈ stores, f = name p.1 := by
    intro stores name f
    rw [← hfst]
    push Not
    exact Iff.rfl
  refine ⟨hE, hA, fun f => ?_, fun f => ?_, fun f hf c => ?_, ha.distinct,
    fun hnodup => ha.nodup (he.nodup hnodup)⟩
  · rw [ha.functions, he.functions, hfst, hfst, ← hE, ← hA, or_assoc]
  · rw [ha.isDeclaration, he.isDeclaration, hne, hne, ← hE, ← hA, and_assoc]
  · rw [ha.callees f ((he.functions f).2 (.inl hf)), he.callees f hf, or_assoc]
    exact Iff.rfl

section Clones

omit [DecidableEq G] [DecidableEq T]

/-- A call in a definition of the partition is kept. -/
theorem exists_calls (hM : WellFormed values M) {M' : LLVMModule T} {E A additional : Finset String}
    (hM' : BothInstrumented values pdg secure insecure M M' E A) {P : Partition String G}
    {out : Option SlicedModule}
    (hout : extract values M' (P.addFunctions additional) additional = some out) {f c : String}
    (hf : f ∈ M.functions) (hdef : M.isDeclaration f = false) (hP : f ∈ P.partition)
    (hc : c ∈ M'.callees f) :
    ∃ L, out = some L ∧
      Extracted values M' (acceptedNames values M' (P.addFunctions additional) additional) L ∧
      L.Calls c := by
  have hdef' : M'.isDeclaration f = false := by
    rw [Bool.eq_false_iff, Ne, hM'.isDeclaration, hdef]
    simp
  have hintrinsic : isIntrinsic f = false := by
    rw [Bool.eq_false_iff]
    intro hi
    rw [hM.intrinsic f hf hi] at hdef
    cases hdef
  have hname : f ∈ functionNames M' (P.addFunctions additional) :=
    Finset.mem_filter.2 ⟨Finset.mem_union_left _ hP, hdef', hintrinsic⟩
  rcases extract_cases hout with ⟨-, hempty⟩ | ⟨L, hL, hext⟩
  · rw [hempty] at hname
    exact absurd hname (Finset.notMem_empty f)
  · refine ⟨L, hL, hext, (hext.calls c).2 ⟨f, (hM'.functions f).2 (.inl hf), hdef', ?_, hc⟩⟩
    exact Finset.mem_union_left _ (Finset.mem_union_left _ hname)

/-- The enclave defines, besides secure functions, the setters made for it. -/
theorem mem_of_defines (hparts : Analysed values pdg M secure insecure) {M' : LLVMModule T}
    {E A : Finset String} (hM' : BothInstrumented values pdg secure insecure M M' E A)
    {L : SlicedModule}
    (hext : Extracted values M' (acceptedNames values M' (secure.addFunctions E) E) L)
    {f : String} (hf : L.Defines f) : f ∈ secure.partition ∨ f ∈ E := by
  obtain ⟨hmem, -, hname⟩ := (hext.defines f).1 hf
  rcases Finset.mem_union.1 hname with hname | hname
  · rcases Finset.mem_union.1 hname with hname | hname
    · exact Finset.mem_union.1 (Finset.mem_filter.1 hname).1
    · exact .inr hname
  · obtain ⟨g, hg, rfl⟩ := Finset.mem_image.1 hname
    have hglobal : values.getGlobalName g ∈ values.globalNames :=
      List.mem_map_of_mem (hparts.globals g hg)
    exact absurd hglobal (hM'.distinct _ hmem)

theorem defines_of_mem {M' : LLVMModule T}
    {E A : Finset String} (hM' : BothInstrumented values pdg secure insecure M M' E A)
    {L : SlicedModule}
    (hext : Extracted values M' (acceptedNames values M' (secure.addFunctions E) E) L)
    {f : String} (hf : f ∈ E ∨ f ∈ A ∧ f ∈ secure.partition) : L.Defines f := by
  have hdef : M'.isDeclaration f = false := by
    rw [Bool.eq_false_iff, Ne, hM'.isDeclaration]
    tauto
  refine (hext.defines f).2 ⟨(hM'.functions f).2 (.inr (hf.imp id And.left)), hdef, ?_⟩
  refine Finset.mem_union_left _ ?_
  rcases hf with hf | ⟨hA, hsecure⟩
  · exact Finset.mem_union_right _ hf
  · obtain ⟨p, -, rfl⟩ := (hM'.mem_appSetters f).1 hA
    exact Finset.mem_union_left _ (Finset.mem_filter.2
      ⟨Finset.mem_union_left _ hsecure, hdef, isIntrinsic_setterName values "app" p.1⟩)

/-- A setter has to be called: the store it follows stands in a definition of the partition. -/
theorem store_caller (hM : WellFormed values M) {isEnclave : Bool} {p : G × V}
    (hp : p ∈ (globalsExtractionHelper values pdg secure insecure isEnclave).stores) :
    values.getFunction p.2 ∈ M.functions ∧ M.isDeclaration (values.getFunction p.2) = false ∧
      values.getFunction p.2 ∈ (if isEnclave then insecure else secure).partition := by
  obtain ⟨-, root, -, n, -, -, -, hstore⟩ := hp
  obtain ⟨⟨w, hclass⟩, hmem⟩ := isGlobalStore_spec hstore
  obtain ⟨hf, hdef⟩ := hM.store _ _ _ hclass
  exact ⟨hf, hdef, hmem⟩

/-- What the enclave calls in the insecure partition is mediated, if the setters are. -/
theorem mem_inInterface_of_calls (hM : WellFormed values M)
    (hparts : Analysed values pdg M secure insecure) {M' : LLVMModule T} {E A : Finset String}
    (hM' : BothInstrumented values pdg secure insecure M M' E A)
    (hsetters : SettersMediated values pdg secure insecure) {L : SlicedModule}
    (hext : Extracted values M' (acceptedNames values M' (secure.addFunctions E) E) L)
    {f : String} (hcalls : L.Calls f) (hdefines : ¬ L.Defines f)
    (hf : f ∈ insecure.partition ∨ f ∈ A) : f ∈ insecure.inInterface := by
  have hsetter : f ∈ A → f ∈ insecure.inInterface := by
    intro hA
    obtain ⟨p, hp, rfl⟩ := (hM'.mem_appSetters f).1 hA
    refine (hsetters.app p hp).resolve_left fun hsecure => hdefines ?_
    exact defines_of_mem hM' hext (.inr ⟨hA, hsecure⟩)
  rcases hf with hf | hA
  · obtain ⟨caller, hmem, hdef, hname, hcallee⟩ := (hext.calls f).1 hcalls
    have hcaller : caller ∈ secure.partition := by
      rcases mem_of_defines hparts hM' hext ((hext.defines caller).2 ⟨hmem, hdef, hname⟩)
        with hsecure | hE
      · exact hsecure
      · obtain ⟨p, hp, rfl⟩ := (hM'.mem_enclaveSetters caller).1 hE
        have hin := hsetters.enclave p hp
        rw [hparts.secure_in, mem_computeInInterface] at hin
        exact hin.1
    have hcallerM := hparts.secure_mem caller hcaller
    rcases (hM'.callees caller hcallerM f).1 hcallee with hcallee | ⟨p, hp, -, rfl⟩ | ⟨p, hp, -, rfl⟩
    · obtain ⟨callSite, hsite, rfl⟩ := hparts.callSite caller hcallerM f hcallee
      rw [hparts.insecure_in, mem_computeInInterface]
      exact ⟨hf, hparts.hasFunctionPDG f (hM.callees _ hcallerM f hcallee), callSite, hsite,
        hparts.disjoint _ hcaller⟩
    · refine absurd (defines_of_mem hM' hext (.inl ?_)) hdefines
      exact (hM'.mem_enclaveSetters _).2 ⟨p, hp, rfl⟩
    · exact hsetter ((hM'.mem_appSetters _).2 ⟨p, hp, rfl⟩)
  · exact hsetter hA

end Clones

/-- If the two modules link, the setters were mediated before. -/
theorem settersMediated_of_linked (hM : WellFormed values M)
    (hparts : Analysed values pdg M secure insecure)
    (hrun : runOnModule values pdg order makeUniqueName fuel M secure insecure = some r)
    (hlinked : Linked r) : SettersMediated values pdg secure insecure := by
  obtain ⟨enclave, app, enclaveLib, appLib, henclave, happ, henclaveLib, happLib, rfl⟩ :=
    runOnModule_cases hrun
  have hM' := bothInstrumented hM henclave happ
  constructor
  · intro p hp
    obtain ⟨hf, hdef, hmem⟩ := store_caller hM hp
    have hA := (hM'.mem_appSetters _).2 ⟨p, hp, rfl⟩
    obtain ⟨L, rfl, hext, hcalls⟩ := exists_calls hM hM' henclaveLib hf hdef hmem
      ((hM'.callees _ hf _).2 (.inr (.inr ⟨p, hp, rfl, rfl⟩)))
    by_cases hsecure : setterName values "app" p.1 ∈ secure.partition
    · exact .inl hsecure
    · have hnot : ¬ L.Defines (setterName values "app" p.1) := by
        intro hd
        rcases mem_of_defines hparts hM' hext hd with hd | hd
        · exact hsecure hd
        · obtain ⟨q, -, hq⟩ := (hM'.mem_enclaveSetters _).1 hd
          exact setterName_app_ne_enclave values p.1 q.1 hq
      refine .inr (hlinked.enclave _ rfl _ ?_ ?_ (Finset.mem_union_right _ hA)).2.1
      · rw [calls_renameInsecureCalls]
        exact hcalls
      · rw [defines_renameInsecureCalls]
        exact hnot
  · intro p hp
    obtain ⟨hf, hdef, hmem⟩ := store_caller hM hp
    obtain ⟨L, rfl, hext, hcalls⟩ := exists_calls hM hM' happLib hf hdef hmem
      ((hM'.callees _ hf _).2 (.inr (.inl ⟨p, hp, rfl, rfl⟩)))
    exact hlinked.app L rfl _ ((hM'.mem_enclaveSetters _).2 ⟨p, hp, rfl⟩) hcalls

/-- What the enclave calls in the insecure partition and only declares has its new name, exactly
where the names are free in turn. -/
theorem names_iff (hM : WellFormed values M) (hnodup : M.functions.Nodup)
    (hunique : ∀ symbols name, makeUniqueName symbols name ∉ symbols)
    (hrun : runOnModule values pdg order makeUniqueName fuel M secure insecure = some r) :
    NamesFreeInTurn values pdg order makeUniqueName fuel M secure insecure ↔
      ∀ L, r.enclaveLib = some L → ∀ f, L.Calls f → L.Declares f → f ∈ insecure.partition →
        L.getName f = "insecure_" ++ f := by
  obtain ⟨enclave, app, enclaveLib, appLib, henclave, happ, henclaveLib, -, rfl⟩ :=
    runOnModule_cases hrun
  have hM' := bothInstrumented hM henclave happ
  have hclone : enclaveClone values pdg order fuel M secure insecure = some enclaveLib := by
    unfold enclaveClone
    rw [henclave, Option.bind_some, happ, Option.bind_some, henclaveLib]
  have hiff : ∀ L, enclaveLib = some L → (FreeInTurn makeUniqueName "insecure_" insecure L ↔
      ∀ f, L.Calls f → L.Declares f → f ∈ insecure.partition →
        (renameInsecureCalls makeUniqueName "insecure_" L insecure).getName f =
          "insecure_" ++ f) := by
    rintro L rfl
    obtain ⟨_, hL, hext⟩ := (extract_cases henclaveLib).resolve_left fun h => nomatch h.1
    cases hL
    exact getName_renameInsecureCalls_iff hext.getName (hext.nodup (hM'.nodup hnodup)) hunique
  constructor
  · intro hfree L' hL' f hcalls hdeclares hP
    obtain ⟨L, rfl, rfl⟩ := Option.map_eq_some_iff.1 hL'
    rw [calls_renameInsecureCalls] at hcalls
    rw [declares_renameInsecureCalls] at hdeclares
    exact (hiff L rfl).1 (hfree L hclone) f hcalls hdeclares hP
  · intro hnames L hL
    rw [hclone] at hL
    cases hL
    refine (hiff L rfl).2 fun f hcalls hdeclares hP => ?_
    exact hnames _ rfl f (calls_renameInsecureCalls L insecure f |>.2 hcalls)
      (declares_renameInsecureCalls L insecure f |>.2 hdeclares) hP

omit [DecidableEq G] in
/-- If the two modules link, every name was free. -/
theorem names_of_linked (hlinked : Linked r) {L : SlicedModule} (hL : r.enclaveLib = some L)
    {f : String} (hcalls : L.Calls f) (hdeclares : L.Declares f)
    (hf : f ∈ r.insecurePartition.partition) : L.getName f = "insecure_" ++ f := by
  have hdefines : ¬ L.Defines f := fun hd => Bool.false_ne_true (hd.2.symm.trans hdeclares.2)
  exact (hlinked.enclave L hL f hcalls hdefines hf).2.2 { getName := f } rfl

/-- If the setters were mediated and the names are free, the two modules link. -/
theorem linked_of_settersMediated (hM : WellFormed values M)
    (hparts : Analysed values pdg M secure insecure)
    (hrun : runOnModule values pdg order makeUniqueName fuel M secure insecure = some r)
    (hnames : ∀ L, r.enclaveLib = some L → ∀ f, L.Calls f → L.Declares f →
      f ∈ insecure.partition → L.getName f = "insecure_" ++ f)
    (hsetters : SettersMediated values pdg secure insecure) : Linked r := by
  obtain ⟨enclave, app, enclaveLib, appLib, henclave, happ, henclaveLib, happLib, rfl⟩ :=
    runOnModule_cases hrun
  have hM' := bothInstrumented hM henclave happ
  have hinsecure_in : ∀ f ∈ insecure.inInterface, f ∈ insecure.partition := fun f hf => by
    rw [hparts.insecure_in, mem_computeInInterface] at hf
    exact hf.1
  constructor
  · rintro L' hL' f hcalls' hdefines hinsecure
    obtain ⟨L, rfl, rfl⟩ := Option.map_eq_some_iff.1 hL'
    have hcalls := (calls_renameInsecureCalls L insecure f).1 hcalls'
    rw [defines_renameInsecureCalls] at hdefines
    obtain ⟨_, hL, hext⟩ := (extract_cases henclaveLib).resolve_left fun h => nomatch h.1
    cases hL
    have hin : f ∈ insecure.inInterface := mem_inInterface_of_calls hM hparts hM' hsetters hext
      hcalls hdefines (Finset.mem_union.1 hinsecure)
    have hf := hparts.insecure_mem f (hinsecure_in f hin)
    have hmem := hext.called_mem f ((hM'.functions f).2 (.inl hf)) hcalls
    have hdeclares : L.Declares f :=
      ⟨hmem, Bool.eq_true_of_not_eq_false fun hd => hdefines ⟨hmem, hd⟩⟩
    have hdeclares' : (renameInsecureCalls makeUniqueName "insecure_" L insecure).Declares f :=
      (declares_renameInsecureCalls L insecure f).2 hdeclares
    refine ⟨hdeclares', hin, fun appF hname => ?_⟩
    rw [hnames _ rfl f hcalls' hdeclares' (hinsecure_in f hin), ← hname]
    rfl
  · intro L hL f hf hcalls
    obtain ⟨p, hp, rfl⟩ := (hM'.mem_enclaveSetters f).1 hf
    exact hsetters.enclave p hp

/-! ## Top theorem -/

/-- **Linking.**  The two extracted modules link exactly if every setter that is called was mediated
before the pass, and the new names are free when the renaming comes to them. -/
theorem runOnModule_linked_iff (hM : WellFormed values M) (hnodup : M.functions.Nodup)
    (hparts : Analysed values pdg M secure insecure)
    (hunique : ∀ symbols name, makeUniqueName symbols name ∉ symbols)
    (hrun : runOnModule values pdg order makeUniqueName fuel M secure insecure = some r) :
    Linked r ↔ SettersMediated values pdg secure insecure ∧
      NamesFreeInTurn values pdg order makeUniqueName fuel M secure insecure := by
  rw [names_iff hM hnodup hunique hrun]
  constructor
  · intro hlinked
    refine ⟨settersMediated_of_linked hM hparts hrun hlinked, fun L hL f hcalls hdeclares hf => ?_⟩
    refine names_of_linked hlinked hL hcalls hdeclares ?_
    obtain ⟨enclave, app, enclaveLib, appLib, -, -, -, -, rfl⟩ := runOnModule_cases hrun
    exact Finset.mem_union_left _ hf
  · rintro ⟨hsetters, hnames⟩
    exact linked_of_settersMediated hM hparts hrun hnames hsetters

end Top

/-! ## An example: `main` calls `work`, which stores to the global `key` and calls `log` -/

inductive SecretValue
  | key
  | store
  | call
deriving DecidableEq

def secretValues : ModuleValues Unit SecretValue Unit where
  globals := [()]
  getGlobalName _ := "key"
  initializer _ := []
  setterType _ := ()
  globalValue _ := .key
  valueClass
    | .store => .storeInst .key .key
    | _ => .other
  getFunction _ := "work"

def secretModule : LLVMModule Unit where
  functions := ["main", "work", "log"]
  getFunctionType _ := ()
  isDeclaration _ := false
  callees f := if f = "main" then ["work"] else if f = "work" then ["log"] else []
  operands _ := []

/-- The nodes are the values; the call sites share one. -/
def secretPDG : PDG String Unit SecretValue SecretValue where
  kind
    | .key => .globalVariable
    | _ => .instruction "work"
  isLLVMNode _ := true
  getNodeValue n := some n
  getParent
    | .key => none
    | _ => some "work"
  isPointerArgOperand _ := false
  outEdges
    | .key => [{ getSource := .key, getDestination := .store, isControlEdge := false }]
    | _ => []
  inEdges _ := []
  hasFunctionPDG _ := true
  getCallSites f :=
    if f = "work" then [{ getInstruction := .call, getCaller := "main", getParent := .call }]
    else if f = "log" then [{ getInstruction := .call, getCaller := "work", getParent := .call }]
    else []
  llvmNodes _ := []
  getNode _ _ := none
  getFormalArgNode _ _ := none
  getGlobalVariableNode _ := some .key

def secretOrder : IterationOrder Unit where
  list s := if () ∈ s then [()] else []
  nodup := IterationOrder.unit.nodup
  mem := IterationOrder.unit.mem

def secretSecure (globals : Finset Unit) : Partition String Unit where
  partition := {"work"}
  inInterface := {"work"}
  partitionGlobals := globals

def secretInsecure : Partition String Unit where
  partition := {"main", "log"}
  inInterface := {"log"}

/-- The pass, when the global is in the secure partition or in none. -/
def secretRun (globals : Finset Unit) : Option (Result Unit) :=
  runOnModule secretValues secretPDG secretOrder (fun _ name => name ++ ".1") 3 secretModule
    (secretSecure globals) secretInsecure

theorem secret_wellFormed : WellFormed secretValues secretModule where
  distinct := by decide
  callees := by decide
  intrinsic := by decide
  store _ _ _ _ := ⟨(by decide : "work" ∈ secretModule.functions), rfl⟩

theorem secret_analysed (globals : Finset Unit) :
    Analysed secretValues secretPDG secretModule (secretSecure globals) secretInsecure where
  hasFunctionPDG _ _ := rfl
  callSite := by decide
  secure_mem := (by decide : ∀ f ∈ ({"work"} : Finset String), f ∈ secretModule.functions)
  insecure_mem := by decide
  disjoint := (by decide : ∀ f ∈ ({"work"} : Finset String), f ∉ secretInsecure.partition)
  globals _ _ := List.mem_singleton.2 rfl
  secure_in := (by decide : {"work"} = computeInInterface secretPDG {"work"})
  insecure_in := by decide

/-- A secure function stores to a secure global: `set_app_key` is called from the enclave, which
declares it under this name. -/
theorem secretStore_not_linked :
    Analysed secretValues secretPDG secretModule (secretSecure {()}) secretInsecure ∧
      ∃ r, secretRun {()} = some r ∧ ¬ Linked r := by
  have hsome : (secretRun {()}).isSome = true := by decide
  obtain ⟨r, hr⟩ := Option.isSome_iff_exists.1 hsome
  refine ⟨secret_analysed {()}, r, hr, fun hlinked => ?_⟩
  have hsetters := settersMediated_of_linked secret_wellFormed (secret_analysed {()}) hr hlinked
  have hstore : ReachesStore (globalsExtractionHelper secretValues secretPDG (secretSecure {()})
      secretInsecure false) () .store := by
    refine ⟨.key, rfl, .store, ?_, rfl, rfl, by decide⟩
    exact .next (.start (List.mem_singleton.2 rfl)) rfl (by decide)
  have hnot : ¬ ("set_app_key" ∈ ({"work"} : Finset String) ∨
      "set_app_key" ∈ secretInsecure.inInterface) := by decide
  exact hnot (hsetters.app ((), .store) ⟨Finset.mem_singleton_self (), hstore⟩)

/-! ## An example: a secure function has the name that `log` would get -/

/-- The first name with a counter that no symbol has. -/
def countedName (symbols : List String) (name : String) : String :=
  (((List.range (symbols.length + 1)).map fun n => name ++ "." ++ (n + 1).repr).find?
    fun candidate => decide (candidate ∉ symbols)).getD name

theorem repr_inj {m n : Nat} (h : m.repr = n.repr) : m = n :=
  Decimal.toDigits_inj (String.ofList_injective h)

/-- Among one name more than there are symbols, one is free. -/
theorem countedName_notMem (symbols : List String) (name : String) :
    countedName symbols name ∉ symbols := by
  have hnodup : ((List.range (symbols.length + 1)).map fun n =>
      name ++ "." ++ (n + 1).repr).Nodup := by
    refine List.nodup_range.map fun m n hmn => ?_
    have hrepr := repr_inj ((String.append_right_inj (name ++ ".")).1 hmn)
    omega
  have hsome : ∃ c, (((List.range (symbols.length + 1)).map fun n =>
      name ++ "." ++ (n + 1).repr).find? fun candidate => decide (candidate ∉ symbols)) = some c := by
    by_contra hnone
    rw [← Option.isSome_iff_exists, Option.not_isSome_iff_eq_none, List.find?_eq_none] at hnone
    have hsub := hnodup.subperm fun c hc => not_not.1 fun hc' => hnone c hc (decide_eq_true hc')
    have hlen := hsub.length_le
    rw [List.length_map, List.length_range] at hlen
    omega
  obtain ⟨c, hc⟩ := hsome
  unfold countedName
  rw [hc]
  exact of_decide_eq_true (List.find?_some (p := fun candidate => decide (candidate ∉ symbols)) hc)

/-- `main` calls `log`, `work` and `printf`, which `work` calls too; nothing calls
`insecure_log`. -/
def takenModule : LLVMModule Unit where
  functions := ["log", "work", "main", "insecure_log", "printf"]
  getFunctionType _ := ()
  isDeclaration f := f == "printf"
  callees f :=
    if f = "main" then ["log", "work", "printf"] else if f = "work" then ["printf"] else []
  operands _ := []

def takenValues : ModuleValues Empty Unit Unit where
  globals := []
  getGlobalName g := g.elim
  initializer _ := []
  setterType _ := ()
  globalValue g := g.elim
  valueClass _ := .callInst
  getFunction _ := "main"

def takenPDG : PDG String Empty Unit Unit where
  kind _ := .constant
  isLLVMNode _ := true
  getNodeValue n := some n
  getParent _ := none
  isPointerArgOperand _ := false
  outEdges _ := []
  inEdges _ := []
  hasFunctionPDG _ := true
  getCallSites f :=
    (["main", "work"].filter fun caller => f ∈ takenModule.callees caller).map fun caller =>
      { getInstruction := (), getCaller := caller, getParent := () }
  llvmNodes _ := []
  getNode _ _ := none
  getFormalArgNode _ _ := none
  getGlobalVariableNode g := g.elim

def takenSecure : Partition String Empty where
  partition := {"work", "insecure_log"}
  inInterface := {"work"}

def takenInsecure : Partition String Empty where
  partition := {"main", "log", "printf"}
  inInterface := {"printf"}

def noOrder : IterationOrder Empty where
  list _ := []
  nodup _ := List.nodup_nil
  mem _ g := g.elim

def takenRun : Option (Result Empty) :=
  runOnModule takenValues takenPDG noOrder countedName 1 takenModule takenSecure takenInsecure

theorem taken_wellFormed : WellFormed takenValues takenModule where
  distinct := by decide
  callees := by decide
  intrinsic := by decide
  store _ _ _ h := nomatch h

theorem taken_analysed :
    Analysed takenValues takenPDG takenModule takenSecure takenInsecure where
  hasFunctionPDG _ _ := rfl
  callSite := by decide
  secure_mem := by decide
  insecure_mem := by decide
  disjoint := by decide
  globals g := g.elim
  secure_in := by decide
  insecure_in := by decide

/-- The enclave declares `printf`, whose name is free; the name that `log` would get is taken, but
`log` is not called. -/
theorem taken_linked :
    (∃ f ∈ takenInsecure.partition, "insecure_" ++ f ∈ takenModule.functions) ∧
      ∃ r, takenRun = some r ∧ Linked r := by
  have hsome : takenRun.isSome = true := by decide
  obtain ⟨r, hr⟩ := Option.isSome_iff_exists.1 hsome
  have hfree : ((enclaveClone takenValues takenPDG noOrder 1 takenModule takenSecure
      takenInsecure).all fun L => L.all fun L =>
        decide (FreeInTurn countedName "insecure_" takenInsecure L)) = true := by decide
  refine ⟨⟨"log", by decide, by decide⟩, r, hr, ?_⟩
  refine (runOnModule_linked_iff taken_wellFormed (by decide) taken_analysed countedName_notMem
    hr).2 ⟨⟨fun p => p.1.elim, fun p => p.1.elim⟩, fun L hL => ?_⟩
  rw [hL] at hfree
  exact of_decide_eq_true hfree

end PartitionExtractorPass

end Vazgen
