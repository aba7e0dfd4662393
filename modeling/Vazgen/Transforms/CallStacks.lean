import Vazgen.Lib.Simulation
import Vazgen.Transforms.Linking

/-!
# What the two extracted modules do together

A function that one of the extracted modules calls and does not define is looked up among the
functions that are generated for its side, which hand the call over to the other side
(`Result.Calls`).  A setter calls nothing.

**`calls_preserved`**: the two modules go through the same sequences of calls and returns as the
original one, each function on the side of its partition; only the setters come in between.
-/

namespace Vazgen

open Simulation

variable {G V N T : Type}

/-- A definition calls a function. -/
def LLVMModule.Calls (M : LLVMModule T) (f c : String) : Prop :=
  M.isDeclaration f = false ∧ c ∈ M.callees f

/-- A definition of the extracted module calls a function. -/
def SlicedModule.CallsFrom (L : SlicedModule) (f c : String) : Prop :=
  L.Defines f ∧ c ∈ L.callees f

/-! ## Setters call nothing -/

namespace GlobalVariableExtractorHelper

variable [DecidableEq G] [DecidableEq T] {h : Helper G V N T} {base : List String} {s s' : State G T}

/-- The functions that were not there at the start call nothing. -/
def Leaves (base : List String) (M : LLVMModule T) : Prop :=
  (∀ f ∈ base, f ∈ M.functions) ∧ ∀ f ∈ M.functions, f ∉ base → M.callees f = []

omit [DecidableEq G] in
theorem Leaves.createGlobalSetterFunction (hs : Leaves base s.module) {global : G}
    (hst : createGlobalSetterFunction h s global = some s') : Leaves base s'.module := by
  unfold GlobalVariableExtractorHelper.createGlobalSetterFunction at hst
  obtain ⟨M, hM, rfl⟩ := Option.map_eq_some_iff.1 hst
  have hfunctions := LLVMModule.mem_functions_getOrInsertFunction hM
  refine ⟨fun f hf => (hfunctions f).2 (.inl (hs.1 f hf)), fun f hf hnot => ?_⟩
  unfold LLVMModule.getOrInsertFunction at hM
  split at hM
  · split at hM
    · cases hM
      exact hs.2 f hf hnot
    · cases hM
  · split at hM
    · cases hM
    · cases hM
      simp only [LLVMModule.createBody, Function.update_apply]
      split
      · rfl
      · next hne => exact hs.2 f (((hfunctions f).1 hf).resolve_right hne) hnot

omit [DecidableEq T] [DecidableEq G] in
theorem Leaves.createCall {M : LLVMModule T} (hM : Leaves base M) {caller : String}
    (hcaller : caller ∈ base) (callee : String) : Leaves base (M.createCall caller callee) := by
  refine ⟨hM.1, fun f hf hnot => ?_⟩
  have hne : f ≠ caller := fun h => hnot (h ▸ hcaller)
  exact (Function.update_of_ne hne _ _).trans (hM.2 f hf hnot)

variable [DecidableEq V]

theorem Leaves.visitNode (hs : Leaves base s.module)
    (hstore : ∀ v w pointer, h.values.valueClass v = .storeInst w pointer →
      h.values.getFunction v ∈ base) {global : G} {n : N}
    (hst : visitNode h global n s = some s') : Leaves base s'.module := by
  unfold GlobalVariableExtractorHelper.visitNode at hst
  split at hst
  · obtain ⟨v, -, hst⟩ := Option.bind_eq_some_iff.1 hst
    split at hst
    · next hglobal =>
      obtain ⟨⟨w, hclass⟩, -⟩ := isGlobalStore_spec hglobal
      obtain ⟨s₁, hs₁, hst⟩ := Option.bind_eq_some_iff.1 hst
      obtain ⟨setter, -, rfl⟩ := Option.map_eq_some_iff.1 hst
      have hleaves : Leaves base s₁.module := by
        split at hs₁
        · cases hs₁
          exact hs
        · exact hs.createGlobalSetterFunction hs₁
      exact hleaves.createCall (hstore v w _ hclass) setter
    · cases hst
      exact hs
  · cases hst
    exact hs

theorem Leaves.addGlobalSetter (hs : Leaves base s.module)
    (hstore : ∀ v w pointer, h.values.valueClass v = .storeInst w pointer →
      h.values.getFunction v ∈ base) {fuel : Nat} {global : G}
    (hst : addGlobalSetter h fuel s global = some s') : Leaves base s'.module := by
  unfold GlobalVariableExtractorHelper.addGlobalSetter at hst
  split at hst
  · cases hst
    exact hs
  · next root _ =>
    obtain ⟨t, ht, hstate⟩ := Option.bind_eq_some_iff.1 hst
    have hstep : ∀ l l' : LoopState G N T, (∀ st, l.state = some st → Leaves base st.module) →
        Worklist.Ends (step h global) l → step h global l = some l' →
        ∀ st, l'.state = some st → Leaves base st.module := by
      intro l l' hl _ hst st hst'
      unfold step at hst
      split at hst
      · next hsome =>
        cases hst
        exact (hl _ hsome).visitNode hstore hst'
      · cases hst
    refine (Worklist.whileSome_induct hstep fuel _ t (fun st hst => ?_) ht).1 s' hstate
    cases hst
    exact hs

/-- **The setters that are made call nothing.** -/
theorem Leaves.instrumentForGlobals {M : LLVMModule T} (hM : Leaves base M)
    (hstore : ∀ v w pointer, h.values.valueClass v = .storeInst w pointer →
      h.values.getFunction v ∈ base) {order : IterationOrder G} {fuel : Nat}
    (hst : instrumentForGlobals h order fuel M = some s) : Leaves base s.module :=
  Worklist.foldlM_induct (P := fun s : State G T => Leaves base s.module)
    (fun _ _ _ _ hs hst => hs.addGlobalSetter hstore hst) hM hst

end GlobalVariableExtractorHelper

namespace PartitionExtractorPass

open GlobalVariableExtractorHelper PartitionExtractor SGXCodeGenerator

/-! ## The two programs -/

/-- A function that runs on one of the two sides, under its name in the original module. -/
structure Frame where
  isEnclave : Bool
  function : String

namespace Result

variable (r : Result G)

def lib (isEnclave : Bool) : Option SlicedModule := if isEnclave then r.enclaveLib else r.appLib

/-- A function of this name is generated for the side; it hands its calls over to `f` on the other
side. -/
def Generates (isEnclave : Bool) (name f : String) : Prop :=
  if isEnclave then
    f ∈ r.insecurePartition.inInterface ∧ ∃ appF : Function, appF.getName = f ∧
      name = (generateAppFunctionInEnclave (generateAppFunctionWrapperInEnclave appF) appF).getName
  else
    f ∈ r.securePartition.inInterface ∧ ∃ enclaveF : Function, enclaveF.getName = f ∧
      name = (generateEnclaveFunctionInDriver (generateEcallWrapper enclaveF) enclaveF).getName

/-- A running function calls another one: its own module's, one of the other side, or an external
one. -/
inductive Calls : Frame → Frame → Prop
  | own {isEnclave : Bool} {L : SlicedModule} {f c : String} :
      r.lib isEnclave = some L → L.CallsFrom f c → L.Defines c → Calls ⟨isEnclave, f⟩ ⟨isEnclave, c⟩
  | across {isEnclave : Bool} {L : SlicedModule} {f c g : String} :
      r.lib isEnclave = some L → L.CallsFrom f c → ¬ L.Defines c →
      r.Generates isEnclave (L.getName c) g → Calls ⟨isEnclave, f⟩ ⟨!isEnclave, g⟩
  | external {isEnclave : Bool} {L : SlicedModule} {f c : String} :
      r.lib isEnclave = some L → L.CallsFrom f c → ¬ L.Defines c →
      (∀ g, ¬ r.Generates isEnclave (L.getName c) g) → Calls ⟨isEnclave, f⟩ ⟨isEnclave, c⟩

/-- The function is no setter. -/
def isOwn (frame : Frame) : Bool :=
  decide (frame.function ∉ r.enclaveSetters ∧ frame.function ∉ r.appSetters)

end Result

/-- The side of a function. -/
def place (secure : Partition String G) (f : String) : Frame :=
  ⟨decide (f ∈ secure.partition), f⟩

/-- No function of the module has the name of a setter. -/
def SettersFresh (values : ModuleValues G V T) (M : LLVMModule T) : Prop :=
  ∀ g prefixName, setterName values prefixName g ∉ M.functions

/-! ## One extracted module -/

/-- What the module extracted for the functions `P` contains. -/
structure Slice (M M' : LLVMModule T) (P : Finset String) (L : SlicedModule) : Prop where
  callsFrom : ∀ f ∈ M.functions, ∀ c, L.CallsFrom f c ↔
    f ∈ P ∧ M.isDeclaration f = false ∧ c ∈ M'.callees f
  defines : ∀ f ∈ M.functions, L.Defines f ↔ f ∈ P ∧ M.isDeclaration f = false
  leaf : ∀ f c, L.CallsFrom f c → f ∈ M.functions
  subset : ∀ f ∈ L.functions, f ∈ M'.functions
  called_mem : ∀ f c, L.CallsFrom f c → c ∈ M'.functions → c ∈ L.functions

section Slice

variable [DecidableEq V] {values : ModuleValues G V T} {pdg : PDG String G V N} {M M' : LLVMModule T}
  {secure insecure P : Partition String G} {E A S : Finset String}

omit [DecidableEq V] in
theorem callees_createModule {names : Finset String} {L : SlicedModule}
    (h : createModule values M names = some L) (f : String) :
    L.callees f = if f ∈ names then M.callees f else [] := by
  unfold createModule at h
  obtain ⟨functions, -, rfl⟩ := Option.map_eq_some_iff.1 h
  rfl

/-- A function of the original module is accepted if it is one of the partition's definitions. -/
theorem mem_acceptedNames_iff (hM : WellFormed values M)
    (hM' : BothInstrumented values pdg secure insecure M M' E A)
    (hfresh : SettersFresh values M) (hS : ∀ f ∈ S, f ∈ E ∨ f ∈ A)
    (hglobals : ∀ g ∈ P.partitionGlobals, g ∈ values.globals) {f : String} (hf : f ∈ M.functions) :
    M'.isDeclaration f = false ∧ f ∈ acceptedNames values M' (P.addFunctions S) S ↔
      f ∈ P.partition ∧ M.isDeclaration f = false := by
  have hE : f ∉ E := fun h => by
    obtain ⟨p, -, rfl⟩ := (hM'.mem_enclaveSetters f).1 h
    exact hfresh _ _ hf
  have hA : f ∉ A := fun h => by
    obtain ⟨p, -, rfl⟩ := (hM'.mem_appSetters f).1 h
    exact hfresh _ _ hf
  have hnotS : f ∉ S := fun h => (hS f h).elim hE hA
  have hdecl : M'.isDeclaration f = M.isDeclaration f := by
    rw [Bool.eq_iff_iff, hM'.isDeclaration]
    exact and_iff_left ⟨hE, hA⟩
  have hglobal : f ∉ P.partitionGlobals.image values.getGlobalName := fun h => by
    obtain ⟨g, hg, rfl⟩ := Finset.mem_image.1 h
    exact hM.distinct _ hf (List.mem_map_of_mem (hglobals g hg))
  rw [hdecl]
  constructor
  · rintro ⟨hdef, hname⟩
    rcases Finset.mem_union.1 hname with hname | hname
    · rcases Finset.mem_union.1 hname with hname | hname
      · exact ⟨(Finset.mem_union.1 (Finset.mem_filter.1 hname).1).resolve_right hnotS, hdef⟩
      · exact absurd hname hnotS
    · exact absurd hname hglobal
  · rintro ⟨hP, hdef⟩
    have hintrinsic : isIntrinsic f = false := by
      rw [Bool.eq_false_iff]
      intro hi
      rw [hM.intrinsic f hf hi] at hdef
      cases hdef
    refine ⟨hdef, Finset.mem_union_left _ (Finset.mem_union_left _ ?_)⟩
    exact Finset.mem_filter.2 ⟨Finset.mem_union_left _ hP, hdecl.trans hdef, hintrinsic⟩

theorem slice_of_extract (hM : WellFormed values M)
    (hM' : BothInstrumented values pdg secure insecure M M' E A)
    (hleaves : Leaves M.functions M') (hfresh : SettersFresh values M)
    (hS : ∀ f ∈ S, f ∈ E ∨ f ∈ A) (hglobals : ∀ g ∈ P.partitionGlobals, g ∈ values.globals)
    {L : SlicedModule} (h : extract values M' (P.addFunctions S) S = some (some L)) :
    Slice M M' P.partition L := by
  unfold extract at h
  split at h
  · cases h
  obtain ⟨_, hcreate, h⟩ := Option.map_eq_some_iff.1 h
  cases h
  have hext := extracted_createModule hcreate
  have hcallsFrom : ∀ f c, L.CallsFrom f c ↔
      f ∈ M'.functions ∧ (M'.isDeclaration f = false ∧
        f ∈ acceptedNames values M' (P.addFunctions S) S) ∧ c ∈ M'.callees f := by
    intro f c
    unfold SlicedModule.CallsFrom
    rw [hext.defines, callees_createModule hcreate, and_assoc]
    refine and_congr_right fun _ => and_congr_right fun hf => ?_
    rw [if_pos hf.2]
  have haccepted := fun {f} hf =>
    mem_acceptedNames_iff (f := f) hM hM' hfresh hS hglobals hf
  refine ⟨fun f hf c => ?_, fun f hf => ?_, fun f c hcalls => ?_, hext.subset, fun f c hcalls hc => ?_⟩
  · rw [hcallsFrom, haccepted hf, and_assoc]
    exact and_iff_right (hleaves.1 f hf)
  · rw [hext.defines, haccepted hf]
    exact and_iff_right (hleaves.1 f hf)
  · obtain ⟨hf, -, hc⟩ := (hcallsFrom f c).1 hcalls
    by_contra hnot
    rw [hleaves.2 f hf hnot] at hc
    cases hc
  · exact hext.called_mem c hc ⟨f, hcalls.1.1, hcalls.1.2, hcalls.2⟩

end Slice

/-! ## Renaming -/

section Rename

variable {makeUniqueName : List String → String → String} {prefixName : String}
  {P : Partition String G} {L : SlicedModule}

/-- A name that is not that of a declared insecure function is kept. -/
theorem getName_renameInsecureCalls_of_not (hname : L.getName = id)
    (hown : ∀ f ∈ P.partition, prefixName ++ f ∉ P.partition)
    (hfree : ∀ f ∈ P.partition, prefixName ++ f ∉ L.functions ∧ prefixName ++ f ∉ L.globalNames)
    {f : String} (hf : ¬ (L.isDeclaration f = true ∧ f ∈ P.partition)) :
    (renameInsecureCalls makeUniqueName prefixName L P).getName f = f := by
  have hfold : ∀ fs done : List String,
      (fs.foldl (renameInsecureCall makeUniqueName prefixName P)
        (renamed prefixName L P done)).getName f = f := by
    intro fs
    induction fs with
    | nil => exact fun done => if_neg fun h => hf h.2
    | cons g fs ih =>
      intro done
      rw [List.foldl_cons, renameInsecureCall_renamed hown hfree, ih]
  have hstart : renamed prefixName L P [] = L := by
    unfold renamed
    congr 1
    funext g
    rw [hname, if_neg fun h => List.not_mem_nil h.1]
    rfl
  have hend := hfold L.functions []
  rwa [hstart] at hend

end Rename

/-! ## The two modules -/

/-- The two partitions as sets of functions. -/
def sidePartition (secure insecure : Partition String G) (isEnclave : Bool) : Partition String G :=
  if isEnclave then secure else insecure

/-- What is known of the two modules together: each is the slice of its partition, and what one of
them calls and does not define is generated for its side exactly if it is on the other one. -/
structure Split (M M' : LLVMModule T) (secure insecure : Partition String G) (r : Result G) :
    Prop where
  own : ∀ f ∈ M.functions, f ∉ r.enclaveSetters ∧ f ∉ r.appSetters
  callees : ∀ f ∈ M.functions, ∀ c, c ∈ M'.callees f →
    c ∈ M.callees f ∨ c ∈ r.enclaveSetters ∨ c ∈ r.appSetters
  callees_of : ∀ f ∈ M.functions, ∀ c ∈ M.callees f, c ∈ M'.callees f
  slice : ∀ isEnclave L, r.lib isEnclave = some L →
    Slice M M' (sidePartition secure insecure isEnclave).partition L
  exists_lib : ∀ isEnclave, ∀ f ∈ M.functions, M.isDeclaration f = false →
    f ∈ (sidePartition secure insecure isEnclave).partition → ∃ L, r.lib isEnclave = some L
  generates : ∀ isEnclave L, r.lib isEnclave = some L → ∀ f c, L.CallsFrom f c → ¬ L.Defines c →
    ∀ g, r.Generates isEnclave (L.getName c) g ↔
      g = c ∧ c ∈ (sidePartition secure insecure !isEnclave).partition

section Top

variable [DecidableEq G] [DecidableEq T] [DecidableEq V] {values : ModuleValues G V T}
  {pdg : PDG String G V N} {order : IterationOrder G}
  {makeUniqueName : List String → String → String} {fuel : Nat} {M M' : LLVMModule T}
  {secure insecure : Partition String G} {r : Result G}

omit [DecidableEq G] [DecidableEq T] [DecidableEq V] in
/-- What a side calls on the other side is in the interface. -/
theorem mem_inInterface_of_callee (hparts : Analysed values pdg M secure insecure)
    (hM : WellFormed values M) (isEnclave : Bool) {f c : String} (hf : f ∈ M.functions)
    (hside : f ∈ (sidePartition secure insecure isEnclave).partition) (hc : c ∈ M.callees f)
    (hother : c ∈ (sidePartition secure insecure !isEnclave).partition) :
    c ∈ (sidePartition secure insecure !isEnclave).inInterface := by
  obtain ⟨callSite, hsite, rfl⟩ := hparts.callSite f hf c hc
  have hpdg := hparts.hasFunctionPDG c (hM.callees _ hf c hc)
  cases isEnclave with
  | true =>
    show c ∈ insecure.inInterface
    rw [hparts.insecure_in, mem_computeInInterface]
    exact ⟨hother, hpdg, callSite, hsite, hparts.disjoint _ hside⟩
  | false =>
    show c ∈ secure.inInterface
    rw [hparts.secure_in, mem_computeInInterface]
    exact ⟨hother, hpdg, callSite, hsite, fun h => hparts.disjoint _ h hside⟩

omit [DecidableEq G] [DecidableEq T] [DecidableEq V] in
theorem generates_enclave {name g : String} :
    r.Generates true name g ↔ g ∈ r.insecurePartition.inInterface ∧ name = "insecure_" ++ g := by
  refine and_congr_right fun _ => ⟨?_, fun h => ⟨{ getName := g }, rfl, h⟩⟩
  rintro ⟨appF, rfl, h⟩
  exact h

omit [DecidableEq G] [DecidableEq T] [DecidableEq V] in
theorem generates_app {name g : String} :
    r.Generates false name g ↔ g ∈ r.securePartition.inInterface ∧ name = g := by
  refine and_congr_right fun _ => ⟨?_, fun h => ⟨{ getName := g }, rfl, h⟩⟩
  rintro ⟨enclaveF, rfl, h⟩
  exact h

omit [DecidableEq G] [DecidableEq T] in
/-- What the enclave's module calls and does not define. -/
theorem generates_enclave_iff (hM : WellFormed values M)
    (hparts : Analysed values pdg M secure insecure) {E A : Finset String}
    (hM' : BothInstrumented values pdg secure insecure M M' E A) (hfree : NamesFree values M insecure)
    (hfresh : SettersFresh values M) (hr : r.insecurePartition.inInterface = insecure.inInterface)
    {names : Finset String} {L : SlicedModule} (hext : Extracted values M' names L)
    (hslice : Slice M M' secure.partition L) {f c : String} (hcalls : L.CallsFrom f c)
    (hdef : ¬ L.Defines c) (g : String) :
    r.Generates true ((renameInsecureCalls makeUniqueName "insecure_" L insecure).getName c) g ↔
      g = c ∧ c ∈ insecure.partition := by
  have hf := hslice.leaf f c hcalls
  obtain ⟨hsecure, -, hcallee⟩ := (hslice.callsFrom f hf c).1 hcalls
  have hcallee := (hM'.callees f hf c).1 hcallee
  have hin : ∀ g ∈ insecure.inInterface, g ∈ insecure.partition := fun g hg => by
    rw [hparts.insecure_in, mem_computeInInterface] at hg
    exact hg.1
  have hM'functions : ∀ g ∈ insecure.partition, "insecure_" ++ g ∉ M'.functions := by
    intro g hg hmem
    rcases (hM'.functions _).1 hmem with hmem | hE | hA
    · exact (hfree g hg).1 hmem
    · obtain ⟨p, -, hp⟩ := (hM'.mem_enclaveSetters _).1 hE
      exact insecure_ne_setterName values g _ _ hp
    · obtain ⟨p, -, hp⟩ := (hM'.mem_appSetters _).1 hA
      exact insecure_ne_setterName values g _ _ hp
  have hnew : ∀ g ∈ insecure.partition,
      "insecure_" ++ g ∉ L.functions ∧ "insecure_" ++ g ∉ L.globalNames :=
    fun g hg => ⟨fun h => hM'functions g hg (hslice.subset _ h),
      hext.globalNames ▸ (hfree g hg).2⟩
  have hown : ∀ g ∈ insecure.partition, "insecure_" ++ g ∉ insecure.partition :=
    fun g hg h => (hfree g hg).1 (hparts.insecure_mem _ h)
  rw [generates_enclave, hr]
  by_cases hc : c ∈ insecure.partition
  · have hcM := hparts.insecure_mem c hc
    have hmem : c ∈ L.functions :=
      hslice.called_mem f c hcalls ((hM'.functions c).2 (.inl hcM))
    have hdeclares : L.Declares c :=
      ⟨hmem, Bool.eq_true_of_not_eq_false fun h => hdef ⟨hmem, h⟩⟩
    have hcallee : c ∈ M.callees f := hcallee.resolve_right fun h => by
      rcases h with ⟨p, -, -, rfl⟩ | ⟨p, -, -, rfl⟩
      · exact hfresh _ _ hcM
      · exact hfresh _ _ hcM
    have hinterface : c ∈ insecure.inInterface :=
      mem_inInterface_of_callee hparts hM true hf hsecure hcallee hc
    rw [getName_renameInsecureCalls hext.getName hown hnew hdeclares hc,
      String.append_right_inj]
    constructor
    · rintro ⟨-, rfl⟩
      exact ⟨rfl, hc⟩
    · rintro ⟨rfl, -⟩
      exact ⟨hinterface, rfl⟩
  · rw [getName_renameInsecureCalls_of_not hext.getName hown hnew fun h => hc h.2]
    refine iff_of_false ?_ fun h => hc h.2
    rintro ⟨hg, rfl⟩
    refine hM'functions g (hin g hg) ((hM'.functions _).2 ?_)
    rcases hcallee with hcallee | ⟨p, hp, -, hname⟩ | ⟨p, hp, -, hname⟩
    · exact .inl (hM.callees f hf _ hcallee)
    · exact .inr (.inl ((hM'.mem_enclaveSetters _).2 ⟨p, hp, hname⟩))
    · exact .inr (.inr ((hM'.mem_appSetters _).2 ⟨p, hp, hname⟩))

omit [DecidableEq G] [DecidableEq T] in
/-- What the application's module calls and does not define. -/
theorem generates_app_iff (hM : WellFormed values M)
    (hparts : Analysed values pdg M secure insecure) {E A : Finset String}
    (hM' : BothInstrumented values pdg secure insecure M M' E A)
    (hfresh : SettersFresh values M) (hr : r.securePartition.inInterface = secure.inInterface)
    {L : SlicedModule} (hname : L.getName = id)
    (hslice : Slice M M' insecure.partition L) {f c : String} (hcalls : L.CallsFrom f c) (g : String) :
    r.Generates false (L.getName c) g ↔ g = c ∧ c ∈ secure.partition := by
  have hf := hslice.leaf f c hcalls
  obtain ⟨hinsecure, -, hcallee⟩ := (hslice.callsFrom f hf c).1 hcalls
  rw [generates_app, hr, hname]
  constructor
  · rintro ⟨hg, rfl⟩
    rw [hparts.secure_in, mem_computeInInterface] at hg
    exact ⟨rfl, hg.1⟩
  · rintro ⟨rfl, hg⟩
    refine ⟨mem_inInterface_of_callee hparts hM false hf hinsecure ?_ hg, rfl⟩
    refine ((hM'.callees f hf g).1 hcallee).resolve_right fun h => ?_
    have hgM := hparts.secure_mem g hg
    rcases h with ⟨p, -, -, rfl⟩ | ⟨p, -, -, rfl⟩
    · exact hfresh _ _ hgM
    · exact hfresh _ _ hgM

omit [DecidableEq G] [DecidableEq T] in
/-- A partition with a defined function has a module. -/
theorem exists_of_extract {enclaveSetters appSetters : Finset String} (hM : WellFormed values M)
    (hM' : BothInstrumented values pdg secure insecure M M' enclaveSetters appSetters)
    {P : Partition String G} {S : Finset String} {out : Option SlicedModule}
    (hout : extract values M' (P.addFunctions S) S = some out) {f : String} (hf : f ∈ M.functions)
    (hdef : M.isDeclaration f = false) (hP : f ∈ P.partition) : ∃ L, out = some L := by
  rcases extract_cases hout with ⟨-, hempty⟩ | ⟨L, hL, -⟩
  · refine absurd hempty (Finset.ne_empty_of_mem (a := f) (Finset.mem_filter.2 ?_))
    refine ⟨Finset.mem_union_left _ hP, ?_, ?_⟩
    · rw [Bool.eq_false_iff, Ne, hM'.isDeclaration, hdef]
      simp
    · rw [Bool.eq_false_iff]
      intro hi
      rw [hM.intrinsic f hf hi] at hdef
      cases hdef
  · exact ⟨L, hL⟩

/-- **The pass splits the module.** -/
theorem split_of_runOnModule (hM : WellFormed values M)
    (hparts : Analysed values pdg M secure insecure) (hfree : NamesFree values M insecure)
    (hfresh : SettersFresh values M) (hglobals : ∀ g ∈ insecure.partitionGlobals, g ∈ values.globals)
    (hrun : runOnModule values pdg order makeUniqueName fuel M secure insecure = some r) :
    ∃ M', Split M M' secure insecure r := by
  obtain ⟨enclave, app, enclaveLib, appLib, henclave, happ, henclaveLib, happLib, rfl⟩ :=
    runOnModule_cases hrun
  have hM' := bothInstrumented hM henclave happ
  have hstore : ∀ v w pointer, values.valueClass v = .storeInst w pointer →
      values.getFunction v ∈ M.functions := fun v w pointer h => (hM.store v w pointer h).1
  have hstart : Leaves M.functions M := ⟨fun _ hf => hf, fun f hf hnot => absurd hf hnot⟩
  have hleaves : Leaves M.functions app.module :=
    (hstart.instrumentForGlobals hstore henclave).instrumentForGlobals hstore happ
  have henclaveSlice : ∀ L, enclaveLib = some L → Slice M app.module secure.partition L := by
    rintro L rfl
    exact slice_of_extract hM hM' hleaves hfresh (fun _ => .inl) hparts.globals henclaveLib
  have happSlice : ∀ L, appLib = some L → Slice M app.module insecure.partition L := by
    rintro L rfl
    exact slice_of_extract hM hM' hleaves hfresh (fun _ => .inr) hglobals happLib
  refine ⟨app.module, fun f hf => ⟨fun h => ?_, fun h => ?_⟩, fun f hf c hc => ?_,
    fun f hf c hc => (hM'.callees f hf c).2 (.inl hc), fun isEnclave L hL => ?_,
    fun isEnclave f hf hdef hside => ?_, fun isEnclave L hL f c hcalls hdef g => ?_⟩
  · obtain ⟨p, -, rfl⟩ := (hM'.mem_enclaveSetters f).1 h
    exact hfresh _ _ hf
  · obtain ⟨p, -, rfl⟩ := (hM'.mem_appSetters f).1 h
    exact hfresh _ _ hf
  · rcases (hM'.callees f hf c).1 hc with hc | ⟨p, hp, -, hname⟩ | ⟨p, hp, -, hname⟩
    · exact .inl hc
    · exact .inr (.inl ((hM'.mem_enclaveSetters c).2 ⟨p, hp, hname⟩))
    · exact .inr (.inr ((hM'.mem_appSetters c).2 ⟨p, hp, hname⟩))
  · cases isEnclave with
    | true =>
      obtain ⟨L₀, hL₀, rfl⟩ := Option.map_eq_some_iff.1 hL
      obtain ⟨getName, heq⟩ := exists_renameInsecureCalls_eq makeUniqueName "insecure_" L₀ insecure
      rw [heq]
      have hslice := henclaveSlice L₀ hL₀
      exact ⟨hslice.callsFrom, hslice.defines, hslice.leaf, hslice.subset, hslice.called_mem⟩
    | false => exact happSlice L hL
  · cases isEnclave with
    | true =>
      obtain ⟨L, rfl⟩ := exists_of_extract hM hM' henclaveLib hf hdef hside
      exact ⟨_, rfl⟩
    | false => exact exists_of_extract hM hM' happLib hf hdef hside
  · cases isEnclave with
    | true =>
      obtain ⟨L₀, rfl, rfl⟩ := Option.map_eq_some_iff.1 hL
      obtain ⟨getName, heq⟩ := exists_renameInsecureCalls_eq makeUniqueName "insecure_" L₀ insecure
      obtain ⟨_, hL₀, hext⟩ := (extract_cases henclaveLib).resolve_left fun h => nomatch h.1
      cases hL₀
      refine generates_enclave_iff hM hparts hM' hfree hfresh rfl hext (henclaveSlice L₀ rfl)
        (f := f) ?_ ?_ g
      · rw [heq] at hcalls
        exact hcalls
      · rwa [defines_renameInsecureCalls] at hdef
    | false =>
      have happ : appLib = some L := hL
      subst happ
      obtain ⟨_, hL₀, hext⟩ := (extract_cases happLib).resolve_left fun h => nomatch h.1
      cases hL₀
      exact generates_app_iff hM hparts hM' hfresh rfl hext.getName (happSlice L rfl) hcalls g

omit [DecidableEq G] [DecidableEq T] [DecidableEq V] in
theorem place_eq_iff (hparts : Analysed values pdg M secure insecure) {f : String}
    (hcover : f ∈ secure.partition ∨ f ∈ insecure.partition) (isEnclave : Bool) :
    place secure f = ⟨isEnclave, f⟩ ↔
      f ∈ (sidePartition secure insecure isEnclave).partition := by
  unfold place
  rw [Frame.mk.injEq, and_iff_left rfl]
  cases isEnclave with
  | true => exact decide_eq_true_iff
  | false =>
    rw [decide_eq_false_iff_not]
    exact ⟨hcover.resolve_left, fun h hs => hparts.disjoint f hs h⟩

omit [DecidableEq G] [DecidableEq T] [DecidableEq V] in
/-- The functions of the original module call on their sides what they have called. -/
theorem Split.embeds (h : Split M M' secure insecure r) (hM : WellFormed values M)
    (hparts : Analysed values pdg M secure insecure)
    (hcover : ∀ f ∈ M.functions, f ∈ secure.partition ∨ f ∈ insecure.partition) :
    Embeds M.Calls r.Calls (· ∈ M.functions) (place secure) r.isOwn where
  keep f c hf hcalls := hM.callees f hf c hcalls.2
  own_place f hf := decide_eq_true (h.own f hf)
  forward f c hf hcalls := by
    obtain ⟨hdef, hc⟩ := hcalls
    have hcM := hM.callees f hf c hc
    have hside := fun {f} hf => place_eq_iff hparts (f := f) (hcover f hf)
    have hplace : f ∈ (sidePartition secure insecure (place secure f).isEnclave).partition :=
      (hside hf _).1 rfl
    obtain ⟨L, hL⟩ := h.exists_lib _ f hf hdef hplace
    have hslice := h.slice _ L hL
    have hfrom : L.CallsFrom f c := (hslice.callsFrom f hf c).2 ⟨hplace, hdef, h.callees_of f hf c hc⟩
    by_cases hdefines : L.Defines c
    · rw [(hside hcM _).2 ((hslice.defines c hcM).1 hdefines).1]
      exact .own hL hfrom hdefines
    · by_cases hother : c ∈ (sidePartition secure insecure !(place secure f).isEnclave).partition
      · rw [(hside hcM _).2 hother]
        exact .across hL hfrom hdefines ((h.generates _ L hL f c hfrom hdefines c).2 ⟨rfl, hother⟩)
      · have hsame : place secure c = ⟨(place secure f).isEnclave, c⟩ := by
          refine (hside hcM _).2 ?_
          cases he : (place secure f).isEnclave <;> rw [he] at hother
          · exact (hcover c hcM).resolve_left hother
          · exact (hcover c hcM).resolve_right hother
        rw [hsame]
        exact .external hL hfrom hdefines
          fun g hg => hother ((h.generates _ L hL f c hfrom hdefines g).1 hg).2
  backward f c' hf hcalls hown := by
    obtain ⟨hE, hA⟩ := of_decide_eq_true hown
    have hside := fun {f} hf => place_eq_iff hparts (f := f) (hcover f hf)
    unfold place at hcalls
    have hmem : ∀ {L : SlicedModule} {c : String}, r.lib (decide (f ∈ secure.partition)) = some L →
        L.CallsFrom f c → c ∉ r.enclaveSetters → c ∉ r.appSetters → M.Calls f c := by
      intro L c hL hfrom hE hA
      obtain ⟨-, hdef, hc⟩ := ((h.slice _ L hL).callsFrom f hf c).1 hfrom
      exact ⟨hdef, (h.callees f hf c hc).resolve_right fun h => h.elim hE hA⟩
    cases hcalls with
    | @own _ L _ c hL hfrom hdefines =>
      have hc := hmem hL hfrom hE hA
      have hcM := hM.callees f hf c hc.2
      exact ⟨c, hc, ((hside hcM _).2 (((h.slice _ L hL).defines c hcM).1 hdefines).1).symm⟩
    | @across _ L _ c g hL hfrom hdefines hg =>
      obtain ⟨rfl, hother⟩ := (h.generates _ L hL f c hfrom hdefines g).1 hg
      have hc := hmem hL hfrom hE hA
      exact ⟨g, hc, ((hside (hM.callees f hf g hc.2) _).2 hother).symm⟩
    | @external _ L _ c hL hfrom hdefines hg =>
      have hc := hmem hL hfrom hE hA
      have hcM := hM.callees f hf c hc.2
      refine ⟨c, hc, ((hside hcM _).2 ?_).symm⟩
      have hother := fun h' => hg c ((h.generates _ L hL f c hfrom hdefines c).2 ⟨rfl, h'⟩)
      by_cases hf' : f ∈ secure.partition
      · rw [decide_eq_true hf'] at hother ⊢
        exact (hcover c hcM).resolve_right hother
      · rw [decide_eq_false hf'] at hother ⊢
        exact (hcover c hcM).resolve_left hother
  leaf f' c' hown hcalls := by
    have hleaf : ∀ {isEnclave : Bool} {L : SlicedModule} {f c : String},
        r.lib isEnclave = some L → L.CallsFrom f c → r.isOwn ⟨isEnclave, f⟩ = true :=
      fun hL hfrom => decide_eq_true (h.own _ ((h.slice _ _ hL).leaf _ _ hfrom))
    cases hcalls with
    | own hL hfrom _ => exact Bool.false_ne_true (hown.symm.trans (hleaf hL hfrom))
    | across hL hfrom _ _ => exact Bool.false_ne_true (hown.symm.trans (hleaf hL hfrom))
    | external hL hfrom _ _ => exact Bool.false_ne_true (hown.symm.trans (hleaf hL hfrom))

/-! ## Top theorem -/

/-- **Extraction preserves calls.**  From any function, the two extracted modules and the generated
functions between them go through the calls and returns that the original module goes through, each
function on the side of its partition, and through no others but those of the setters. -/
theorem calls_preserved (hM : WellFormed values M)
    (hparts : Analysed values pdg M secure insecure)
    (hcover : ∀ f ∈ M.functions, f ∈ secure.partition ∨ f ∈ insecure.partition)
    (hglobals : ∀ g ∈ insecure.partitionGlobals, g ∈ values.globals)
    (hfree : NamesFree values M insecure) (hfresh : SettersFresh values M)
    (hrun : runOnModule values pdg order makeUniqueName fuel M secure insecure = some r)
    (entry : String) (hentry : entry ∈ M.functions) :
    (∀ events stack, Run (StackStep M.Calls) [entry] events stack →
      Run (StackStep r.Calls) [place secure entry] (events.map (Event.map (place secure)))
        (stack.map (place secure))) ∧
    ∀ events' stack', Run (StackStep r.Calls) [place secure entry] events' stack' →
      ∃ events stack, Run (StackStep M.Calls) [entry] events stack ∧
        events'.filter (fun e => r.isOwn e.frame) = events.map (Event.map (place secure)) ∧
        stack'.filter r.isOwn = stack.map (place secure) := by
  obtain ⟨M', hsplit⟩ := split_of_runOnModule hM hparts hfree hfresh hglobals hrun
  exact (hsplit.embeds hM hparts hcover).run_iff (s := [entry])
    fun f hf => List.mem_singleton.1 hf ▸ hentry

end Top

theorem secret_settersFresh : SettersFresh secretValues secretModule := by
  intro g prefixName h
  have hname : ∀ name ∈ secretModule.functions, name.toList.head? ≠ some 's' := by decide
  refine hname _ h ?_
  rw [setterName, String.toList_append, String.toList_append, String.toList_append]
  rfl

/-- `main` calls `work` in the enclave, which calls `log` in the application; `log` returns. -/
theorem secret_calls_preserved : ∃ r, secretRun ∅ = some r ∧
    Run (StackStep r.Calls) [⟨false, "main"⟩]
      [.call ⟨true, "work"⟩, .call ⟨false, "log"⟩, .ret ⟨false, "log"⟩]
      [⟨true, "work"⟩, ⟨false, "main"⟩] := by
  have hsome : (secretRun ∅).isSome = true := by decide
  obtain ⟨r, hr⟩ := Option.isSome_iff_exists.1 hsome
  have hfree : NamesFree secretValues secretModule secretInsecure := by
    unfold NamesFree
    decide
  have hcover : ∀ f ∈ secretModule.functions,
      f ∈ ({"work"} : Finset String) ∨ f ∈ secretInsecure.partition := by decide
  have hwork : secretModule.Calls "main" "work" := ⟨rfl, by decide⟩
  have hlog : secretModule.Calls "work" "log" := ⟨rfl, by decide⟩
  exact ⟨r, hr, (calls_preserved secret_wellFormed (secret_analysed ∅) hcover
    (fun g hg => absurd hg (Finset.notMem_empty g)) hfree secret_settersFresh hr "main" (by decide)).1
    [.call "work", .call "log", .ret "log"] ["work", "main"]
    (.cons (.call hwork) (.cons (.call hlog) (.cons .ret (.nil _))))⟩

end PartitionExtractorPass

end Vazgen
