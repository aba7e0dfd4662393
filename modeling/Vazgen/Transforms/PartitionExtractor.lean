import Vazgen.Transforms.GlobalVariableExtractor

/-!
# Extracting the two modules

`runOnModule` first makes and calls the setters; it then clones the module twice, once with the
definitions of the secure partition and once with those of the insecure one, and renames in the
first clone the declarations of insecure functions.

A clone is cleaned up by a loop that increments its iterator twice after each erasure: it does what
it is for exactly when the unused declarations stand apart (`eraseUnused_eq_some_filter_iff`).

`Extracted` says what a clone contains.  Renaming changes names only, and gives every declared
insecure function its new name where no new name is taken (`getName_renameInsecureCalls`).
-/

namespace Vazgen

variable {G V N T : Type}

/-! ## Algorithm -/

/-- A module made by `CloneModule`.  Functions are known by the names that they have in the
original module. -/
structure SlicedModule where
  functions : List String
  globalNames : List String
  isDeclaration : String → Bool
  callees : String → List String
  operands : String → List String
  /-- the functions that the initializers refer to -/
  initializers : List String
  getName : String → String := id

namespace SlicedModule

/-- `user_empty`, negated. -/
def hasUser (L : SlicedModule) (f : String) : Bool :=
  (L.functions.any fun user => f ∈ L.callees user || f ∈ L.operands user) || f ∈ L.initializers

def symbols (L : SlicedModule) : List String := L.functions.map L.getName ++ L.globalNames

/-- `setName`; a name that is taken is made unique. -/
def setName (makeUniqueName : List String → String → String) (L : SlicedModule)
    (f name : String) : SlicedModule :=
  { L with
    getName := Function.update L.getName f
      (if name ∈ L.symbols then makeUniqueName L.symbols name else name) }

end SlicedModule

namespace PartitionExtractor

/-- `CloneModule` with the definitions of the accepted names. -/
def cloneModule (values : ModuleValues G V T) (M : LLVMModule T) (names : Finset String) :
    SlicedModule where
  functions := M.functions
  globalNames := values.globalNames
  isDeclaration f := M.isDeclaration f || decide (f ∉ names)
  callees f := if f ∈ names then M.callees f else []
  operands f := if f ∈ names then M.operands f else []
  initializers := (values.globals.filter fun g => values.getGlobalName g ∈ names).flatMap
    values.initializer

/-- The loop that erases unused declarations.  After an erasure the iterator moves on twice; `none`
when that takes it past the end. -/
def eraseUnused (L : SlicedModule) : List String → Option (List String)
  | [] => some []
  | f :: rest =>
    if L.isDeclaration f && !L.hasUser f then
      match rest with
      | [] => none
      | g :: rest => (eraseUnused L rest).map (g :: ·)
    else (eraseUnused L rest).map (f :: ·)

def createModule (values : ModuleValues G V T) (M : LLVMModule T) (names : Finset String) :
    Option SlicedModule :=
  let L := cloneModule values M names
  (eraseUnused L L.functions).map fun functions => { L with functions := functions }

/-- The functions of the partition whose definitions are kept. -/
def functionNames (M : LLVMModule T) (P : Partition String G) : Finset String :=
  P.partition.filter fun f => M.isDeclaration f = false ∧ isIntrinsic f = false

/-- The names that `extract` hands to `createModule`. -/
def acceptedNames (values : ModuleValues G V T) (M : LLVMModule T) (P : Partition String G)
    (additionalFunctions : Finset String) : Finset String :=
  functionNames M P ∪ additionalFunctions ∪ P.partitionGlobals.image values.getGlobalName

/-- `extract`; the inner `none` when there is nothing to extract. -/
def extract (values : ModuleValues G V T) (M : LLVMModule T) (P : Partition String G)
    (additionalFunctions : Finset String) : Option (Option SlicedModule) :=
  if functionNames M P = ∅ ∧ additionalFunctions = ∅ then some none
  else (createModule values M (acceptedNames values M P additionalFunctions)).map some

end PartitionExtractor

namespace PartitionExtractorPass

open GlobalVariableExtractorHelper

/-- The body of the loop of `renameInsecureCalls`. -/
def renameInsecureCall (makeUniqueName : List String → String → String) (prefixName : String)
    (insecurePartition : Partition String G) (L : SlicedModule) (f : String) : SlicedModule :=
  if L.isDeclaration f = true ∧ L.getName f ∈ insecurePartition.partition then
    L.setName makeUniqueName f (prefixName ++ L.getName f)
  else L

def renameInsecureCalls (makeUniqueName : List String → String → String) (prefixName : String)
    (L : SlicedModule) (insecurePartition : Partition String G) : SlicedModule :=
  L.functions.foldl (renameInsecureCall makeUniqueName prefixName insecurePartition) L

/-- The partitions, the two extracted modules and the setters after the pass. -/
structure Result (G : Type) where
  securePartition : Partition String G
  insecurePartition : Partition String G
  enclaveLib : Option SlicedModule
  appLib : Option SlicedModule
  enclaveSetters : Finset String
  appSetters : Finset String

section Model

variable [DecidableEq G] [DecidableEq T] [DecidableEq V] (values : ModuleValues G V T)
  (pdg : PDG String G V N) (order : IterationOrder G)
  (makeUniqueName : List String → String → String) (fuel : Nat)

/-- The helper of `getGlobalSetters`. -/
def globalsExtractionHelper (secure insecure : Partition String G) (isEnclave : Bool) :
    Helper G V N T where
  values := values
  pdg := pdg
  partition := if isEnclave then insecure else secure
  prefixName := if isEnclave then "enclave" else "app"

def runOnModule (M : LLVMModule T) (secure insecure : Partition String G) : Option (Result G) :=
  (instrumentForGlobals (globalsExtractionHelper values pdg secure insecure true) order fuel
    M).bind fun enclave =>
  (instrumentForGlobals (globalsExtractionHelper values pdg secure insecure false) order fuel
    enclave.module).bind fun app =>
  let finalSecure := secure.addFunctions enclave.getGlobalSetters
  (PartitionExtractor.extract values app.module finalSecure enclave.getGlobalSetters).bind
    fun enclaveLib =>
  let finalInsecure := insecure.addFunctions app.getGlobalSetters
  (PartitionExtractor.extract values app.module finalInsecure app.getGlobalSetters).map
    fun appLib =>
  { securePartition := finalSecure
    insecurePartition := finalInsecure
    enclaveLib := enclaveLib.map fun L =>
      renameInsecureCalls makeUniqueName "insecure_" L insecure
    appLib := appLib
    enclaveSetters := enclave.getGlobalSetters
    appSetters := app.getGlobalSetters }

end Model

end PartitionExtractorPass

/-! ## The two clones -/

namespace SlicedModule

/-- A definition of the module calls the function. -/
def Calls (L : SlicedModule) (f : String) : Prop :=
  ∃ caller ∈ L.functions, L.isDeclaration caller = false ∧ f ∈ L.callees caller

instance (L : SlicedModule) (f : String) : Decidable (L.Calls f) :=
  inferInstanceAs (Decidable (∃ caller ∈ L.functions, L.isDeclaration caller = false ∧
    f ∈ L.callees caller))

def Defines (L : SlicedModule) (f : String) : Prop :=
  f ∈ L.functions ∧ L.isDeclaration f = false

def Declares (L : SlicedModule) (f : String) : Prop :=
  f ∈ L.functions ∧ L.isDeclaration f = true

/-- A declaration without users. -/
def isUnused (L : SlicedModule) (f : String) : Bool := L.isDeclaration f && !L.hasUser f

/-- Directly behind every unused declaration stands a function that is none. -/
def UnusedApart (L : SlicedModule) (functions : List String) : Prop :=
  ∀ f rest, f :: rest <:+ functions → L.isUnused f = true → ∃ g ∈ rest.head?, L.isUnused g = false

theorem unusedApart_cons {L : SlicedModule} {f : String} {rest : List String} :
    L.UnusedApart (f :: rest) ↔
      (L.isUnused f = true → ∃ g ∈ rest.head?, L.isUnused g = false) ∧ L.UnusedApart rest := by
  constructor
  · intro h
    exact ⟨h f rest List.suffix_rfl, fun g tail hsuffix => h g tail (hsuffix.trans (by simp))⟩
  · rintro ⟨hf, hrest⟩ g tail hsuffix
    rcases List.suffix_cons_iff.1 hsuffix with heq | hsuffix
    · cases heq
      exact hf
    · exact hrest g tail hsuffix

end SlicedModule

namespace PartitionExtractor

/-- What the module extracted for `names` contains. -/
structure Extracted (values : ModuleValues G V T) (M : LLVMModule T) (names : Finset String)
    (L : SlicedModule) : Prop where
  subset : ∀ f ∈ L.functions, f ∈ M.functions
  calls : ∀ f, L.Calls f ↔
    ∃ caller ∈ M.functions, M.isDeclaration caller = false ∧ caller ∈ names ∧ f ∈ M.callees caller
  defines : ∀ f, L.Defines f ↔ f ∈ M.functions ∧ M.isDeclaration f = false ∧ f ∈ names
  called_mem : ∀ f ∈ M.functions, L.Calls f → f ∈ L.functions
  globalNames : L.globalNames = values.globalNames
  getName : L.getName = id
  nodup : M.functions.Nodup → L.functions.Nodup

section EraseUnused

variable {L : SlicedModule} {f g : String} {rest : List String}

/-- The last function is erased, and the header increments the end. -/
theorem eraseUnused_singleton (hf : L.isUnused f = true) : eraseUnused L [f] = none :=
  if_pos hf

/-- The function behind an erased one is stepped over. -/
theorem eraseUnused_cons_cons (hf : L.isUnused f = true) :
    eraseUnused L (f :: g :: rest) = (eraseUnused L rest).map (g :: ·) :=
  if_pos hf

theorem eraseUnused_cons_of_used (hf : L.isUnused f = false) :
    eraseUnused L (f :: rest) = (eraseUnused L rest).map (f :: ·) := by
  rw [eraseUnused.eq_def]
  exact if_neg (Bool.eq_false_iff.1 hf)

theorem filter_cons_of_used (hf : L.isUnused f = false) :
    (f :: rest).filter (fun f => !L.isUnused f) = f :: rest.filter fun f => !L.isUnused f :=
  List.filter_cons_of_pos (by rw [hf]; decide)

theorem isUnused_eq_false_iff :
    L.isUnused f = false ↔ L.isDeclaration f = false ∨ L.hasUser f = true := by
  rw [SlicedModule.isUnused, Bool.and_eq_false_iff, Bool.not_eq_false']

end EraseUnused

theorem eraseUnused_sublist {L : SlicedModule} {functions kept : List String}
    (h : eraseUnused L functions = some kept) : kept.Sublist functions := by
  induction functions using eraseUnused.induct L generalizing kept with
  | case1 =>
    cases h
    exact List.Sublist.refl []
  | case2 f hf =>
    rw [eraseUnused_singleton hf] at h
    cases h
  | case3 f hf g rest ih =>
    rw [eraseUnused_cons_cons hf] at h
    obtain ⟨kept, hkept, rfl⟩ := Option.map_eq_some_iff.1 h
    exact ((ih hkept).cons_cons g).cons f
  | case4 f rest hf ih =>
    rw [eraseUnused_cons_of_used (Bool.eq_false_iff.2 hf)] at h
    obtain ⟨kept, hkept, rfl⟩ := Option.map_eq_some_iff.1 h
    exact (ih hkept).cons_cons f

/-- The loop keeps everything that is defined or used. -/
theorem mem_of_eraseUnused {L : SlicedModule} {functions kept : List String}
    (h : eraseUnused L functions = some kept) :
    ∀ f ∈ functions, L.isUnused f = false → f ∈ kept := by
  induction functions using eraseUnused.induct L generalizing kept with
  | case1 => exact fun f hf _ => absurd hf List.not_mem_nil
  | case2 f hf =>
    rw [eraseUnused_singleton hf] at h
    cases h
  | case3 f hf g rest ih =>
    rw [eraseUnused_cons_cons hf] at h
    obtain ⟨kept, hkept, rfl⟩ := Option.map_eq_some_iff.1 h
    intro x hx hxused
    rcases List.mem_cons.1 hx with rfl | hx
    · exact absurd (hxused.symm.trans hf) Bool.false_ne_true
    · rcases List.mem_cons.1 hx with rfl | hx
      · exact List.mem_cons_self
      · exact List.mem_cons_of_mem g (ih hkept x hx hxused)
  | case4 f rest hf ih =>
    rw [eraseUnused_cons_of_used (Bool.eq_false_iff.2 hf)] at h
    obtain ⟨kept, hkept, rfl⟩ := Option.map_eq_some_iff.1 h
    intro x hx hxused
    exact (List.mem_cons.1 hx).elim (fun e => e ▸ List.mem_cons_self)
      fun hx => List.mem_cons_of_mem f (ih hkept x hx hxused)

theorem map_cons_eq_some_iff {α : Type} {a : α} {x : Option (List α)} {l : List α} :
    x.map (a :: ·) = some (a :: l) ↔ x = some l :=
  (Option.map_injective (List.cons_injective (a := a))).eq_iff (b := some l)

/-- **What the clean-up does exactly.**  It erases the unused declarations and nothing else, without
moving the iterator past the end, exactly when none of them is last or in front of another. -/
theorem eraseUnused_eq_some_filter_iff (L : SlicedModule) (functions : List String) :
    eraseUnused L functions = some (functions.filter fun f => !L.isUnused f) ↔
      L.UnusedApart functions := by
  induction functions using eraseUnused.induct L with
  | case1 =>
    refine iff_of_true rfl fun f rest hsuffix => ?_
    cases List.suffix_nil.1 hsuffix
  | case2 f hf =>
    rw [eraseUnused_singleton hf]
    refine iff_of_false (fun h => by cases h) fun hapart => ?_
    obtain ⟨g, hg, -⟩ := hapart f [] List.suffix_rfl hf
    cases hg
  | case3 f hf g rest ih =>
    have hfilter : (f :: g :: rest).filter (fun f => !L.isUnused f) =
        (g :: rest).filter fun f => !L.isUnused f :=
      List.filter_cons_of_neg (by rw [SlicedModule.isUnused, hf]; decide)
    rw [eraseUnused_cons_cons hf, hfilter, SlicedModule.unusedApart_cons]
    cases hg : L.isUnused g with
    | true =>
      -- the unused declaration behind an erased one stays
      refine iff_of_false (fun h => ?_) fun hapart => ?_
      · obtain ⟨kept, -, hkept⟩ := Option.map_eq_some_iff.1 h
        have hmem : g ∈ (g :: rest).filter fun f => !L.isUnused f := by
          rw [← hkept]
          exact List.mem_cons_self
        rw [List.mem_filter, hg] at hmem
        cases hmem.2
      · obtain ⟨g', hg', hused⟩ := hapart.1 hf
        cases hg'
        exact Bool.false_ne_true (hused.symm.trans hg)
    | false =>
      rw [filter_cons_of_used hg, map_cons_eq_some_iff, SlicedModule.unusedApart_cons, ← ih]
      refine ⟨fun hrest => ⟨fun _ => ⟨g, rfl, hg⟩, fun hg' => ?_, hrest⟩, fun h => h.2.2⟩
      exact absurd (hg.symm.trans hg') Bool.false_ne_true
  | case4 f rest hf ih =>
    have hused : L.isUnused f = false := Bool.eq_false_iff.2 hf
    rw [eraseUnused_cons_of_used hused, filter_cons_of_used hused, map_cons_eq_some_iff,
      SlicedModule.unusedApart_cons, ← ih]
    exact ⟨fun hrest => ⟨fun hf' => absurd hf' hf, hrest⟩, fun h => h.2⟩

/-- The values of a module without globals. -/
def noGlobals : ModuleValues Empty Empty Unit where
  globals := []
  getGlobalName g := g.elim
  initializer _ := []
  setterType _ := ()
  globalValue g := g.elim
  valueClass v := v.elim
  getFunction v := v.elim

/-- `main` calls `encrypt`, which calls `log`. -/
def encryptModule : LLVMModule Unit where
  functions := ["main", "encrypt", "log"]
  getFunctionType _ := ()
  isDeclaration _ := false
  callees f := if f = "main" then ["encrypt"] else if f = "encrypt" then ["log"] else []
  operands _ := []

def encryptSlice (names : Finset String) : SlicedModule :=
  cloneModule noGlobals encryptModule names

/-- The slice of `main` ends in the unused declaration of `log`: the iterator is moved past the
end.  In the slice of `log` the declaration of `encrypt` stays, behind that of `main`. -/
theorem encryptSlice_not_cleaned :
    eraseUnused (encryptSlice {"main"}) encryptModule.functions = none ∧
      (encryptSlice {"main"}).isUnused "log" = true ∧
      eraseUnused (encryptSlice {"log"}) encryptModule.functions = some ["encrypt", "log"] ∧
      (encryptSlice {"log"}).isUnused "encrypt" = true ∧
      ¬ ∀ names, eraseUnused (encryptSlice names) encryptModule.functions =
        some (encryptModule.functions.filter fun f => !(encryptSlice names).isUnused f) := by
  have hmain : eraseUnused (encryptSlice {"main"}) encryptModule.functions = none := by decide
  refine ⟨hmain, by decide, by decide, by decide, fun h => ?_⟩
  have h := h {"main"}
  rw [hmain] at h
  cases h

theorem extracted_createModule {values : ModuleValues G V T} {M : LLVMModule T}
    {names : Finset String} {L : SlicedModule} (h : createModule values M names = some L) :
    Extracted values M names L := by
  unfold createModule at h
  obtain ⟨functions, hfunctions, rfl⟩ := Option.map_eq_some_iff.1 h
  have hsublist := eraseUnused_sublist hfunctions
  have hsub : ∀ f ∈ functions, f ∈ M.functions := fun f hf => hsublist.subset hf
  have hused := mem_of_eraseUnused hfunctions
  have hdecl : ∀ f, (cloneModule values M names).isDeclaration f = false ↔
      M.isDeclaration f = false ∧ f ∈ names := by
    intro f
    simp [cloneModule]
  have hcalls : ∀ f caller, M.isDeclaration caller = false ∧ caller ∈ names ∧
      f ∈ M.callees caller ↔ (cloneModule values M names).isDeclaration caller = false ∧
        f ∈ (cloneModule values M names).callees caller := by
    intro f caller
    rw [hdecl, and_assoc]
    refine and_congr_right fun _ => and_congr_right fun hnames => ?_
    simp [cloneModule, hnames]
  have hclone : ∀ f, (∃ caller ∈ functions,
      (cloneModule values M names).isDeclaration caller = false ∧
        f ∈ (cloneModule values M names).callees caller) ↔
      ∃ caller ∈ M.functions, M.isDeclaration caller = false ∧ caller ∈ names ∧
        f ∈ M.callees caller := by
    intro f
    refine exists_congr fun caller => ?_
    rw [hcalls]
    exact and_congr_left fun hc =>
      ⟨hsub caller, fun hmem => hused caller hmem (isUnused_eq_false_iff.2 (.inl hc.1))⟩
  refine ⟨hsub, hclone, fun f => ?_, fun f hf hcall => ?_, rfl, rfl, fun hM => hM.sublist hsublist⟩
  · show f ∈ functions ∧ _ ↔ _
    rw [← hdecl]
    exact and_congr_left fun hc =>
      ⟨hsub f, fun hmem => hused f hmem (isUnused_eq_false_iff.2 (.inl hc))⟩
  · obtain ⟨caller, hmem, -, hcallee⟩ := hcall
    refine hused f hf (isUnused_eq_false_iff.2 (.inr ?_))
    unfold SlicedModule.hasUser
    rw [Bool.or_eq_true, List.any_eq_true]
    exact .inl ⟨caller, hsub caller hmem, by rw [decide_eq_true hcallee, Bool.true_or]⟩

theorem extract_cases {values : ModuleValues G V T} {M : LLVMModule T} {P : Partition String G}
    {additionalFunctions : Finset String} {out : Option SlicedModule}
    (h : extract values M P additionalFunctions = some out) :
    (out = none ∧ functionNames M P = ∅) ∨
      ∃ L, out = some L ∧ Extracted values M (acceptedNames values M P additionalFunctions) L := by
  unfold extract at h
  split at h
  · next hempty => exact .inl ⟨(Option.some.inj h).symm, hempty.1⟩
  · obtain ⟨L, hL, rfl⟩ := Option.map_eq_some_iff.1 h
    exact .inr ⟨L, rfl, extracted_createModule hL⟩

end PartitionExtractor

namespace PartitionExtractorPass

open GlobalVariableExtractorHelper PartitionExtractor

/-! ## Renaming -/

section Rename

variable {makeUniqueName : List String → String → String} {prefixName : String}

variable (makeUniqueName prefixName) in
/-- Renaming changes names only. -/
theorem exists_foldl_renameInsecureCall_eq (P : Partition String G) (fs : List String)
    (L : SlicedModule) :
    ∃ getName, fs.foldl (renameInsecureCall makeUniqueName prefixName P) L =
      { L with getName := getName } := by
  induction fs generalizing L with
  | nil => exact ⟨L.getName, rfl⟩
  | cons f fs ih =>
    rw [List.foldl_cons]
    unfold renameInsecureCall
    split
    · exact ih (L.setName makeUniqueName f (prefixName ++ L.getName f))
    · exact ih L

variable (makeUniqueName prefixName) in
theorem exists_renameInsecureCalls_eq (L : SlicedModule) (P : Partition String G) :
    ∃ getName, renameInsecureCalls makeUniqueName prefixName L P = { L with getName := getName } :=
  exists_foldl_renameInsecureCall_eq makeUniqueName prefixName P L.functions L

theorem calls_renameInsecureCalls (L : SlicedModule) (P : Partition String G) (f : String) :
    (renameInsecureCalls makeUniqueName prefixName L P).Calls f ↔ L.Calls f := by
  obtain ⟨getName, heq⟩ := exists_renameInsecureCalls_eq makeUniqueName prefixName L P
  rw [heq]
  exact Iff.rfl

theorem defines_renameInsecureCalls (L : SlicedModule) (P : Partition String G) (f : String) :
    (renameInsecureCalls makeUniqueName prefixName L P).Defines f ↔ L.Defines f := by
  obtain ⟨getName, heq⟩ := exists_renameInsecureCalls_eq makeUniqueName prefixName L P
  rw [heq]
  exact Iff.rfl

theorem declares_renameInsecureCalls (L : SlicedModule) (P : Partition String G) (f : String) :
    (renameInsecureCalls makeUniqueName prefixName L P).Declares f ↔ L.Declares f := by
  obtain ⟨getName, heq⟩ := exists_renameInsecureCalls_eq makeUniqueName prefixName L P
  rw [heq]
  exact Iff.rfl

/-- When the renaming comes to an insecure function that the module calls and only declares, the new
name is not taken. -/
def FreeInTurn (makeUniqueName : List String → String → String) (prefixName : String)
    (P : Partition String G) (L : SlicedModule) : Prop :=
  ∀ i : Fin L.functions.length, L.Calls (L.functions.get i) →
    L.isDeclaration (L.functions.get i) = true → L.functions.get i ∈ P.partition →
      prefixName ++ L.functions.get i ∉
        ((L.functions.take i).foldl (renameInsecureCall makeUniqueName prefixName P) L).symbols

instance (P : Partition String G) (L : SlicedModule) :
    Decidable (FreeInTurn makeUniqueName prefixName P L) :=
  inferInstanceAs (Decidable (∀ i : Fin L.functions.length, L.Calls (L.functions.get i) →
    L.isDeclaration (L.functions.get i) = true → L.functions.get i ∈ P.partition →
      prefixName ++ L.functions.get i ∉
        ((L.functions.take i).foldl (renameInsecureCall makeUniqueName prefixName P) L).symbols))

/-- The module in which the functions among `done` have been renamed. -/
def renamed (prefixName : String) (L : SlicedModule) (P : Partition String G)
    (done : List String) : SlicedModule :=
  { L with
    getName := fun f =>
      if f ∈ done ∧ L.isDeclaration f = true ∧ f ∈ P.partition then prefixName ++ f else f }

variable {L : SlicedModule} {P : Partition String G}

/-- Renaming one more function. -/
theorem renamed_concat {done : List String} {f : String} {getName : String → String}
    (hother : ∀ g, g ≠ f → getName g = (renamed prefixName L P done).getName g)
    (hf : getName f = if L.isDeclaration f = true ∧ f ∈ P.partition then prefixName ++ f else f) :
    ({ L with getName := getName } : SlicedModule) = renamed prefixName L P (done ++ [f]) := by
  unfold renamed
  congr 1
  funext g
  by_cases hg : g = f
  · subst hg
    simp [hf]
  · rw [hother g hg]
    simp [renamed, hg]

theorem renameInsecureCall_renamed (hown : ∀ f ∈ P.partition, prefixName ++ f ∉ P.partition)
    (hfree : ∀ f ∈ P.partition, prefixName ++ f ∉ L.functions ∧ prefixName ++ f ∉ L.globalNames)
    (done : List String) (f : String) :
    renameInsecureCall makeUniqueName prefixName P (renamed prefixName L P done) f =
      renamed prefixName L P (done ++ [f]) := by
  have hdecl : (renamed prefixName L P done).isDeclaration f = L.isDeclaration f := rfl
  unfold renameInsecureCall
  by_cases hf : L.isDeclaration f = true ∧ f ∈ P.partition
  · by_cases hdone : f ∈ done
    · -- its new name is not the name of an insecure function
      have hname : (renamed prefixName L P done).getName f = prefixName ++ f := by
        simp [renamed, hf.1, hf.2, hdone]
      rw [hname, if_neg fun h => hown f hf.2 h.2]
      exact renamed_concat (fun _ _ => rfl) (hname.trans (if_pos hf).symm)
    · have hname : (renamed prefixName L P done).getName f = f := by simp [renamed, hdone]
      have hnew : prefixName ++ f ∉ (renamed prefixName L P done).symbols := by
        intro hmem
        rcases List.mem_append.1 hmem with hmem | hmem
        · obtain ⟨g, hg, hgname⟩ := List.mem_map.1 hmem
          have hgname : (if g ∈ done ∧ L.isDeclaration g = true ∧ g ∈ P.partition then
            prefixName ++ g else g) = prefixName ++ f := hgname
          split at hgname
          · next hren => exact hdone ((String.append_right_inj prefixName).1 hgname ▸ hren.1)
          · exact (hfree f hf.2).1 (hgname ▸ hg)
        · exact (hfree f hf.2).2 hmem
      rw [hname, hdecl, if_pos hf]
      unfold SlicedModule.setName
      rw [if_neg hnew]
      exact renamed_concat (fun g hg => Function.update_of_ne hg _ _)
        ((Function.update_self _ _ _).trans (if_pos hf).symm)
  · have hname : (renamed prefixName L P done).getName f = f := by
      simp only [renamed]
      exact if_neg fun h => hf h.2
    rw [hname, hdecl, if_neg hf]
    exact renamed_concat (fun _ _ => rfl) (hname.trans (if_neg hf).symm)

/-- The name of a function changes only when the loop comes to it. -/
theorem getName_foldl_of_notMem (L : SlicedModule) {fs : List String} {f : String} (hf : f ∉ fs) :
    (fs.foldl (renameInsecureCall makeUniqueName prefixName P) L).getName f = L.getName f := by
  induction fs generalizing L with
  | nil => rfl
  | cons g fs ih =>
    obtain ⟨hfg, hf⟩ := List.ne_and_not_mem_of_not_mem_cons hf
    rw [List.foldl_cons, ih _ hf]
    unfold renameInsecureCall
    split
    · exact Function.update_of_ne hfg _ _
    · rfl

/-- **The name that a declared insecure function gets**: it depends on the names that are in use
when the loop comes to the function. -/
theorem getName_renameInsecureCalls_eq (hname : L.getName = id) (hnodup : L.functions.Nodup)
    {before after : List String} {f : String} (hsplit : L.functions = before ++ f :: after)
    (hdecl : L.isDeclaration f = true) (hP : f ∈ P.partition) :
    (renameInsecureCalls makeUniqueName prefixName L P).getName f =
      ((before.foldl (renameInsecureCall makeUniqueName prefixName P) L).setName makeUniqueName f
        (prefixName ++ f)).getName f := by
  rw [hsplit, List.nodup_append, List.nodup_cons] at hnodup
  have hbefore : f ∉ before := fun hf => hnodup.2.2 f hf f List.mem_cons_self rfl
  have hafter : f ∉ after := hnodup.2.1.1
  obtain ⟨getName, heq⟩ := exists_foldl_renameInsecureCall_eq makeUniqueName prefixName P before L
  have hcome : (before.foldl (renameInsecureCall makeUniqueName prefixName P) L).getName f = f := by
    rw [getName_foldl_of_notMem L hbefore, hname]
    rfl
  have hdecl' : (before.foldl (renameInsecureCall makeUniqueName prefixName P) L).isDeclaration f =
      true := by
    rw [heq]
    exact hdecl
  unfold renameInsecureCalls
  rw [hsplit, List.foldl_append, List.foldl_cons, getName_foldl_of_notMem _ hafter,
    renameInsecureCall, hcome, if_pos ⟨hdecl', hP⟩]

/-- **When a called function gets its new name.** -/
theorem getName_renameInsecureCalls_iff (hname : L.getName = id) (hnodup : L.functions.Nodup)
    (hunique : ∀ symbols name, makeUniqueName symbols name ∉ symbols) :
    FreeInTurn makeUniqueName prefixName P L ↔
      ∀ f, L.Calls f → L.Declares f → f ∈ P.partition →
        (renameInsecureCalls makeUniqueName prefixName L P).getName f = prefixName ++ f := by
  have hsplit : ∀ i : Fin L.functions.length,
      L.functions = L.functions.take i ++ L.functions.get i :: L.functions.drop (i + 1) := by
    intro i
    rw [List.get_eq_getElem, ← List.drop_eq_getElem_cons i.isLt, List.take_append_drop]
  constructor
  · intro hfree f hcalls hf hP
    obtain ⟨i, rfl⟩ := List.get_of_mem hf.1
    rw [getName_renameInsecureCalls_eq hname hnodup (hsplit i) hf.2 hP]
    exact (Function.update_self _ _ _).trans (if_neg (hfree i hcalls hf.2 hP))
  · intro hnames i hcalls hdecl hP htaken
    have hget := hnames _ hcalls ⟨List.get_mem _ i, hdecl⟩ hP
    rw [getName_renameInsecureCalls_eq hname hnodup (hsplit i) hdecl hP] at hget
    -- a name made unique is not the one that was taken
    have hmade := ((Function.update_self _ _ _).trans (if_pos htaken)).symm.trans hget
    exact hunique _ _ (hmade ▸ htaken)

/-- **Where the new names are free, every declared insecure function gets its own.** -/
theorem getName_renameInsecureCalls (hname : L.getName = id)
    (hown : ∀ f ∈ P.partition, prefixName ++ f ∉ P.partition)
    (hfree : ∀ f ∈ P.partition, prefixName ++ f ∉ L.functions ∧ prefixName ++ f ∉ L.globalNames)
    {f : String} (hf : L.Declares f) (hP : f ∈ P.partition) :
    (renameInsecureCalls makeUniqueName prefixName L P).getName f = prefixName ++ f := by
  have hfold : ∀ fs done : List String,
      fs.foldl (renameInsecureCall makeUniqueName prefixName P) (renamed prefixName L P done) =
        renamed prefixName L P (done ++ fs) := by
    intro fs
    induction fs with
    | nil => intro done; rw [List.append_nil]; rfl
    | cons f fs ih =>
      intro done
      rw [List.foldl_cons, renameInsecureCall_renamed hown hfree, ih, List.append_assoc,
        List.singleton_append]
  have hstart : renamed prefixName L P [] = L := by
    unfold renamed
    congr 1
    funext g
    rw [hname, if_neg fun h => List.not_mem_nil h.1]
    rfl
  have hend := hfold L.functions []
  rw [hstart] at hend
  unfold renameInsecureCalls
  rw [hend]
  simp [renamed, hf.1, hf.2, hP]

end Rename

/-! ## Names -/

theorem setterName_app_ne_enclave (values : ModuleValues G V T) (g g' : G) :
    setterName values "app" g ≠ setterName values "enclave" g' := by
  intro h
  have h := congrArg String.toList h
  simp [setterName] at h

theorem insecure_ne_setterName (values : ModuleValues G V T) (f prefixName : String) (g : G) :
    "insecure_" ++ f ≠ setterName values prefixName g := by
  intro h
  have h := congrArg String.toList h
  simp [setterName] at h

theorem isIntrinsic_setterName (values : ModuleValues G V T) (prefixName : String) (g : G) :
    isIntrinsic (setterName values prefixName g) = false := by
  simp [isIntrinsic, setterName, List.isPrefixOf]

end PartitionExtractorPass

end Vazgen
