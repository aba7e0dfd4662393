import Mathlib.Data.List.MinMax
import Vazgen.CodeGen.SourceFile

/-!
# The generated enclave and driver files

In both files namespaces come last, after the functions that refer to what is in them
(`enclaveFile_not_declaresBeforeUse`, `driverFile_not_declaresBeforeUse`).  Only the order is wrong:
everything referred to is somewhere in the file (`enclaveFile_complete`, `driverFile_complete`).
-/

namespace Vazgen

open Scoping NumberedMap

namespace SGXCodeGenerator

open SourceFileWriter

/-! ## The enclave file -/

/-- The declaration of a function that is defined elsewhere. -/
def externFunction (f : Signature) : GeneratedFunction where
  function := f.toFunction
  statements := []
  body_eq := f.body_eq

def generateEnclaveAbortFunction : Function where
  getName := "Abort"
  getReturnType := { name := "PrimitiveStatus" }
  getParams :=
    [{ type := { name := "void", isPtr := true }, name := "context" },
      { type := { name := "TrustedParameterStack", isPtr := true }, name := "params" }]
  body :=
    [.text "TrustedPrimitives::BestEffortAbort(\"Aborting enclave\")",
      .text "return PrimitiveStatus::OkStatus()"]

def enclaveAbortFunction : GeneratedFunction where
  function := generateEnclaveAbortFunction
  statements :=
    [.other "TrustedPrimitives::BestEffortAbort(\"Aborting enclave\")" [],
      .returnValue "PrimitiveStatus::OkStatus()"]
  body_eq := rfl

def asyloEnclaveInit (ecalls : Selectors) : GeneratedFunction where
  function := generateAsyloEnclaveInitFunction ecalls
  statements := (entryHandlers ecalls).map (fun h => .registerEntryHandler h.1 h.2) ++
    [.returnValue "PrimitiveStatus::OkStatus()"]
  body_eq := by
    rw [List.map_append, List.map_map]
    rfl

def generateAsyloEnclaveFiniFunction : Function where
  getName := "asylo_enclave_fini"
  getReturnType := { name := "PrimitiveStatus" }
  body := [.text "return PrimitiveStatus::OkStatus()"]

def asyloEnclaveFini : GeneratedFunction where
  function := generateAsyloEnclaveFiniFunction
  statements := [.returnValue "PrimitiveStatus::OkStatus()"]
  body_eq := rfl

/-- The functions of the enclave file outside all namespaces. -/
def enclaveTopFunctions (enclaveFunctions appFunctions : List Signature) :
    List GeneratedFunction :=
  enclaveFunctions.map externFunction ++ appFunctions.map appFunctionInEnclave

/-- The functions in the unnamed namespace in `asylo::primitives`. -/
def enclaveUnnamedFunctions (enclaveFunctions appFunctions : List Signature) :
    List GeneratedFunction :=
  [enclaveAbortFunction] ++ enclaveFunctions.map (fun f => enclaveEcall f.toFunction) ++
    appFunctions.map fun f => appFunctionWrapperInEnclave f.toFunction

/-- `generateEnclaveRunner`; `ecalls` is the map of selectors in its order of iteration.  The name of
the file is not written to it and left out. -/
def enclaveFile (ecalls : Selectors) (enclaveFunctions appFunctions : List Signature) :
    SourceScope :=
  let unnamedNamespace := .mk "" (enclaveUnnamedFunctions enclaveFunctions appFunctions) [] []
  let primitivesNamespace := .mk "primitives" [asyloEnclaveInit ecalls, asyloEnclaveFini] []
    [unnamedNamespace]
  let asyloNamespace := .mk "asylo" [] [] [primitivesNamespace]
  .mk "" (enclaveTopFunctions enclaveFunctions appFunctions) [] [asyloNamespace]

/-! ## The driver file -/

def appMain : Signature := signature "app_main" { name := "int" } []

def generateAppDriverMain : Function where
  getName := "main"
  getReturnType := { name := "int" }
  getParams :=
    [{ type := { name := "int" }, name := "argc" },
      { type := { name := "char", isPtr := true, isArray := true }, name := "argv" }]
  body :=
    [.text "google::ParseCommandLineFlags(&argc, &argv, true)",
      .call none "asylo::primitives::registerOCalls()", .call none "app_main()", .text "return 0"]

def appDriverMain : GeneratedFunction where
  function := generateAppDriverMain
  statements :=
    [.other "google::ParseCommandLineFlags(&argc, &argv, true)" ["argc", "argv"],
      .call none true { getName := "registerOCalls" } [],
      .call none false appMain.toFunction [], .returnValue "0"]
  body_eq := by decide

def oCallRegistration (appFunctions : List Function) : GeneratedFunction where
  function := generateOCallRegistration appFunctions
  statements := [.loadEnclave, .declare "Status" "status"] ++
    (exitHandlers appFunctions).map fun h => .registerExitHandler h.1 h.2
  body_eq := by
    rw [List.map_append, List.map_map]
    rfl

/-- The variable that the wrappers around ECALLs use. -/
def clientVariable : Variable where
  type := { name := "std::shared_ptr<EnclaveClient>" }
  name := "client"

/-- The functions of the driver file outside all namespaces. -/
def driverTopFunctions (enclaveFunctions appFunctions : List Signature) :
    List GeneratedFunction :=
  [externFunction appMain] ++ appFunctions.map externFunction ++ [appDriverMain] ++
    enclaveFunctions.map enclaveFunctionInDriver

/-- The functions in `asylo::primitives`. -/
def driverPrimitivesFunctions (enclaveFunctions appFunctions : List Signature) :
    List GeneratedFunction :=
  [oCallRegistration (appFunctions.map (·.toFunction))] ++
    appFunctions.map (fun f => oCall f.toFunction) ++
    enclaveFunctions.map fun f => ecallWrapper f.toFunction

/-- `generateAppDriver` -/
def driverFile (enclaveFunctions appFunctions : List Signature) : SourceScope :=
  let primitivesNamespace := .mk "primitives"
    (driverPrimitivesFunctions enclaveFunctions appFunctions) [(clientVariable, "")] []
  let asyloNamespace := .mk "asylo" [] [] [primitivesNamespace]
  .mk "" (driverTopFunctions enclaveFunctions appFunctions) [] [asyloNamespace]

/-- Both files declare before use, whatever the order of the selectors is. -/
def FilesDeclareBeforeUse (enclaveFunctions appFunctions : List Signature) : Prop :=
  ∀ ecalls, ecalls.Perm (ecallSelectors (enclaveFunctions.map (·.toFunction))) →
    DeclaresBeforeUse (enclaveFile ecalls enclaveFunctions appFunctions) ∧
      DeclaresBeforeUse (driverFile enclaveFunctions appFunctions)

/-! ## What the files declare and use -/

section Events

variable {enclaveFunctions appFunctions : List Signature}

abbrev primitivesPath : List String := ["asylo", "primitives"]

theorem scopeEvents_enclaveFile (ecalls : Selectors) :
    scopeEvents [] (enclaveFile ecalls enclaveFunctions appFunctions) =
      (enclaveTopFunctions enclaveFunctions appFunctions).flatMap (·.sourceEvents []) ++
        ((asyloEnclaveInit ecalls).sourceEvents primitivesPath ++
          (asyloEnclaveFini.sourceEvents primitivesPath ++
            (enclaveUnnamedFunctions enclaveFunctions appFunctions).flatMap
              (·.sourceEvents primitivesPath))) := by
  simp only [enclaveFile, scopeEvents, subScopeEvents, List.flatMap_cons, List.flatMap_nil,
    List.map_nil, List.append_nil, List.nil_append, List.append_assoc]
  rfl

theorem scopeEvents_driverFile :
    scopeEvents [] (driverFile enclaveFunctions appFunctions) =
      (driverTopFunctions enclaveFunctions appFunctions).flatMap (·.sourceEvents []) ++
        ((driverPrimitivesFunctions enclaveFunctions appFunctions).flatMap
            (·.sourceEvents primitivesPath) ++
          [.declare { path := primitivesPath, name := "client" }]) := by
  simp only [driverFile, scopeEvents, subScopeEvents, List.flatMap_nil, List.map_cons,
    List.map_nil, List.append_nil, List.nil_append]
  rfl

theorem declared_sourceEvents (path : List String) (F : GeneratedFunction) :
    declared (F.sourceEvents path) = [{ path := path, name := F.function.getName }] := by
  rw [GeneratedFunction.sourceEvents, declared, declared_map_use]

theorem declared_functions (path : List String) (functions : List GeneratedFunction) :
    declared (functions.flatMap (·.sourceEvents path)) =
      functions.map fun F => { path := path, name := F.function.getName } := by
  rw [declared_flatMap]
  simp only [declared_sourceEvents]
  exact List.map_eq_flatMap.symm

theorem used_sourceEvents (path : List String) (F : GeneratedFunction) :
    used (F.sourceEvents path) =
      F.references.map fun r => { path := path, isQualified := r.1, name := r.2 } := by
  rw [GeneratedFunction.sourceEvents, used, used_map_use]

theorem mem_used_functions {path : List String} {functions : List GeneratedFunction}
    {r : Reference} :
    r ∈ used (functions.flatMap (·.sourceEvents path)) ↔
      ∃ F ∈ functions, ∃ x ∈ F.references,
        { path := path, isQualified := x.1, name := x.2 } = r := by
  rw [used_flatMap]
  simp only [used_sourceEvents, List.mem_flatMap, List.mem_map]

theorem exists_of_mem_used_functions {path : List String} {functions : List GeneratedFunction}
    {scope : List Declaration} (h : ∀ F ∈ functions, F.ResolvesIn path scope) {r : Reference}
    (hr : r ∈ used (functions.flatMap (·.sourceEvents path))) : ∃ d ∈ scope, r.ResolvesTo d := by
  obtain ⟨F, hF, x, hx, rfl⟩ := mem_used_functions.1 hr
  exact h F hF x hx

end Events

/-! ## The order -/

/-- `main` calls `asylo::primitives::registerOCalls`, which comes after it. -/
theorem driverFile_not_declaresBeforeUse (enclaveFunctions appFunctions : List Signature) :
    ¬ DeclaresBeforeUse (driverFile enclaveFunctions appFunctions) := by
  intro h
  rw [declaresBeforeUse_iff, scopeEvents_driverFile] at h
  have htop := (declaredBeforeUse_append.1 h).1
  have hmain : appDriverMain ∈ driverTopFunctions enclaveFunctions appFunctions :=
    List.mem_append_left _ (List.mem_append_right _ List.mem_cons_self)
  have hreference : (true, "registerOCalls") ∈ appDriverMain.references := by decide
  obtain ⟨d, hd, -, hpath⟩ :=
    htop.exists_of_mem_used (mem_used_functions.2 ⟨_, hmain, _, hreference, rfl⟩)
  rw [List.nil_append, declared_functions] at hd
  -- nothing before the namespace is in it
  obtain ⟨F, -, rfl⟩ := List.mem_map.1 hd
  rw [if_pos rfl] at hpath
  cases hpath

theorem mem_references_asyloEnclaveInit {ecalls : Selectors} {x : Bool × String} :
    x ∈ (asyloEnclaveInit ecalls).references ↔ ∃ h ∈ entryHandlers ecalls, x = (false, h.2) := by
  rw [GeneratedFunction.references_eq rfl]
  simp [asyloEnclaveInit, Statement.references, List.mem_flatMap]

/-- What is declared when the body of `asylo_enclave_init` is reached. -/
theorem name_of_mem_declared {ecalls : Selectors} {enclaveFunctions appFunctions : List Signature}
    {d : Declaration}
    (hd : d ∈ declared ((enclaveTopFunctions enclaveFunctions appFunctions).flatMap
      (·.sourceEvents []) ++ (asyloEnclaveInit ecalls).sourceEvents primitivesPath)) :
    (∃ f ∈ enclaveFunctions, d.name = f.getName) ∨ (∃ s, d.name = "insecure_" ++ s) ∨
      d.name = "asylo_enclave_init" := by
  rw [declared_append, declared_functions, declared_sourceEvents] at hd
  rcases List.mem_append.1 hd with hd | hd
  · obtain ⟨F, hF, rfl⟩ := List.mem_map.1 hd
    rcases List.mem_append.1 hF with hF | hF
    · obtain ⟨f, hf, rfl⟩ := List.mem_map.1 hF
      exact .inl ⟨f, hf, rfl⟩
    · obtain ⟨f, -, rfl⟩ := List.mem_map.1 hF
      exact .inr (.inl ⟨f.getName, rfl⟩)
  · rw [List.mem_singleton.1 hd]
    exact .inr (.inr rfl)

theorem ne_insecure {name : String} (h : name.toList.head? ≠ some 'i') (s : String) :
    name ≠ "insecure_" ++ s := by
  rintro rfl
  exact h (by simp [String.toList_append])

theorem secure_ne_init (s : String) : "secure_" ++ s ≠ "asylo_enclave_init" := by
  intro h
  have hhead := congrArg (fun s : String => s.toList.head?) h
  simp [String.toList_append] at hhead

/-- Some handler that is registered has no name from before: `Abort`, if there are no secure
functions, and else the handler of the one with the longest name. -/
theorem exists_undeclared_handler {ecalls : Selectors} {enclaveFunctions : List Signature}
    (hecalls : ecalls.Perm (ecallSelectors (enclaveFunctions.map (·.toFunction)))) :
    ∃ h ∈ entryHandlers ecalls, (∀ f ∈ enclaveFunctions, h.2 ≠ f.getName) ∧
      (∀ s, h.2 ≠ "insecure_" ++ s) ∧ h.2 ≠ "asylo_enclave_init" := by
  cases hlongest : (enclaveFunctions.map (·.getName)).argmax String.length with
  | none =>
    have hnil : enclaveFunctions = [] := List.map_eq_nil_iff.1 (List.argmax_eq_none.1 hlongest)
    refine ⟨("kAbortEnclaveSelector", "Abort"), List.mem_append_right _ List.mem_cons_self, ?_,
      ne_insecure (by decide), by decide⟩
    intro f hf
    rw [hnil] at hf
    cases hf
  | some name =>
    obtain ⟨f, hf, rfl⟩ := List.mem_map.1 (List.argmax_mem hlongest)
    obtain ⟨selector, hselector, -, hfun⟩ := exists_entry "EnclaveSelector" ecallSelector
      (fun _ _ => rfl) (fun _ _ => rfl) (List.mem_map_of_mem (f := Signature.toFunction) hf)
    have hhandler : (selector.selectorName, "secure_" ++ f.getName) ∈ entryHandlers ecalls := by
      refine List.mem_append_left _ (List.mem_map.2 ⟨_, hecalls.mem_iff.2 hselector, ?_⟩)
      rw [hfun]
    refine ⟨_, hhandler, fun g hg hs => ?_, ne_insecure (by simp [String.toList_append]),
      secure_ne_init _⟩
    have hle := List.le_of_mem_argmax (List.mem_map_of_mem (f := (·.getName)) hg) hlongest
    have hlength := congrArg String.length hs
    rw [String.length_append] at hlength
    have hpos : "secure_".length = 7 := by decide
    omega

theorem enclaveFile_not_declaresBeforeUse {ecalls : Selectors}
    {enclaveFunctions : List Signature} (appFunctions : List Signature)
    (hecalls : ecalls.Perm (ecallSelectors (enclaveFunctions.map (·.toFunction)))) :
    ¬ DeclaresBeforeUse (enclaveFile ecalls enclaveFunctions appFunctions) := by
  intro h
  rw [declaresBeforeUse_iff, scopeEvents_enclaveFile, ← List.append_assoc] at h
  have hinit := (declaredBeforeUse_append.1 h).1
  obtain ⟨e, he, hne, hneInsecure, hneInit⟩ := exists_undeclared_handler hecalls
  have hused : { path := primitivesPath, isQualified := false, name := e.2 } ∈
      used ((enclaveTopFunctions enclaveFunctions appFunctions).flatMap (·.sourceEvents []) ++
        (asyloEnclaveInit ecalls).sourceEvents primitivesPath) := by
    rw [used_append, used_sourceEvents]
    refine List.mem_append_right _ (List.mem_map.2 ⟨(false, e.2), ?_, rfl⟩)
    exact mem_references_asyloEnclaveInit.2 ⟨e, he, rfl⟩
  obtain ⟨d, hd, hname, -⟩ := hinit.exists_of_mem_used hused
  rcases name_of_mem_declared hd with ⟨f, hf, hs⟩ | ⟨s, hs⟩ | hs
  · exact hne f hf (hname.symm.trans hs)
  · exact hneInsecure s (hname.symm.trans hs)
  · exact hneInit (hname.symm.trans hs)

/-! ## References -/

section References

variable {last : Statement} {x : Bool × String} {path path' : List String}
  {scope : List Declaration}

theorem resolvesIn_of_references_eq_nil {F : GeneratedFunction} (h : F.references = []) :
    F.ResolvesIn path scope := by
  intro x hx
  rw [h] at hx
  cases hx

theorem flatMap_references_nil {α : Type} {g : α → Statement} (hg : ∀ a, (g a).references = [])
    (l : List α) : (l.map g).flatMap Statement.references = [] := by
  rw [List.flatMap_map]
  exact List.flatMap_eq_nil_iff.2 fun a _ => hg a

/-- A handler refers to the function that it calls. -/
theorem eq_of_mem_references_handler {F : GeneratedFunction} {f : Function} {isNewReturnVal : Bool}
    {returnType : CType} (hF : F.statements = handlerStatements f isNewReturnVal returnType last)
    (hlast : last.references = []) (hx : x ∈ F.references) : x = (false, f.getName) := by
  have hpops := flatMap_references_nil
    (g := fun p : Variable => .pop p.type (paramName p) true true) (fun _ => rfl)
    f.getParams.reverse
  have hpushes := flatMap_references_nil
    (g := fun p : Variable => .pushAlloc { p.type with isPtr := false } (paramName p) true)
    (fun _ => rfl) f.getParams
  have hmem := (List.mem_filter.1 hx).1
  rw [hF, handlerStatements, popArgumentStatements, pushResultStatements] at hmem
  simp only [List.flatMap_append, List.flatMap_singleton, hlast, hpops, hpushes,
    List.append_nil] at hmem
  cases hvoid : f.isVoidReturn with
  | true => simpa [hvoid, callStatement, Statement.references] using hmem
  | false => simpa [hvoid, callStatement, Statement.references] using hmem

theorem handler_resolvesIn {F : GeneratedFunction} {f : Function} {isNewReturnVal : Bool}
    {returnType : CType} (hF : F.statements = handlerStatements f isNewReturnVal returnType last)
    (hlast : last.references = []) (hpath : path' <+: path)
    (hf : { path := path', name := f.getName } ∈ scope) : F.ResolvesIn path scope := by
  intro x hx
  cases eq_of_mem_references_handler hF hlast hx
  exact ⟨_, hf, resolvesTo_enclosing hpath _⟩

theorem mem_references_wrapper {F : GeneratedFunction} {f : Function} {stackType : String}
    {call : Statement} (hF : F.statements = wrapperStatements f stackType call last)
    (hlast : last.references = []) (hx : x ∈ F.references) : x ∈ call.references := by
  have hpushes := flatMap_references_nil
    (g := fun p : Variable => .pushAlloc p.type p.name false) (fun _ => rfl) (wrapperParams f)
  have hpops := flatMap_references_nil
    (g := fun p : Variable => .pop p.type p.name false false) (fun _ => rfl) (wrapperParams f)
  have hmem := (List.mem_filter.1 hx).1
  rw [hF, wrapperStatements] at hmem
  have hdeclare : (Statement.declare stackType "params").references = [] := rfl
  simpa only [List.flatMap_append, List.flatMap_singleton, hlast, hpushes, hpops, hdeclare,
    List.nil_append, List.append_nil] using hmem

/-- A redirection refers to the wrapper. -/
theorem eq_of_mem_references_redirect {F : GeneratedFunction} {wrapper f : Function}
    {l : List Statement} (hF : F.statements = redirectStatements wrapper f ++ l)
    (hl : l.flatMap Statement.references = []) (hx : x ∈ F.references) :
    x = (true, wrapper.getName) := by
  have hmem := (List.mem_filter.1 hx).1
  rw [hF, redirectStatements, List.flatMap_append, hl] at hmem
  cases hvoid : f.isVoidReturn with
  | true => simpa [hvoid, Statement.references] using hmem
  | false => simpa [hvoid, Statement.references] using hmem

theorem redirect_resolvesIn {F : GeneratedFunction} {wrapper f : Function} {l : List Statement}
    (hF : F.statements = redirectStatements wrapper f ++ l)
    (hl : l.flatMap Statement.references = [])
    (hwrapper : { path := primitivesPath, name := wrapper.getName } ∈ scope) :
    F.ResolvesIn path scope := by
  intro x hx
  cases eq_of_mem_references_redirect hF hl hx
  exact ⟨_, hwrapper, resolvesTo_qualified _ _⟩

end References

section Complete

variable {enclaveFunctions appFunctions : List Signature}

theorem entryHandler_cases {ecalls : Selectors}
    (hecalls : ecalls.Perm (ecallSelectors (enclaveFunctions.map (·.toFunction))))
    {h : String × String} (hh : h ∈ entryHandlers ecalls) :
    (∃ f ∈ enclaveFunctions, h.2 = "secure_" ++ f.getName) ∨ h.2 = "Abort" := by
  rcases List.mem_append.1 hh with hh | hh
  · obtain ⟨e, he, rfl⟩ := List.mem_map.1 hh
    have he' := hecalls.mem_iff.1 he
    obtain ⟨f', hf', hname⟩ := List.mem_map.1
      (mem_keys_fill.1 (List.mem_map_of_mem (f := Prod.fst) he'))
    obtain ⟨f, hf, rfl⟩ := List.mem_map.1 hf'
    have hfun := (entry_eq "EnclaveSelector" ecallSelector (fun _ _ => rfl) (fun _ _ => rfl)
      he').2
    refine .inl ⟨f, hf, ?_⟩
    rw [hname]
    exact congrArg ("secure_" ++ ·) hfun
  · rw [List.mem_singleton.1 hh]
    exact .inr rfl

theorem mem_declared_enclaveTop {ecalls : Selectors} {F : GeneratedFunction}
    (hF : F ∈ enclaveTopFunctions enclaveFunctions appFunctions) :
    { path := [], name := F.function.getName } ∈
      declared (scopeEvents [] (enclaveFile ecalls enclaveFunctions appFunctions)) := by
  rw [scopeEvents_enclaveFile, declared_append, declared_functions]
  exact List.mem_append_left _ (List.mem_map.2 ⟨F, hF, rfl⟩)

theorem mem_declared_enclaveUnnamed {ecalls : Selectors} {F : GeneratedFunction}
    (hF : F ∈ enclaveUnnamedFunctions enclaveFunctions appFunctions) :
    { path := primitivesPath, name := F.function.getName } ∈
      declared (scopeEvents [] (enclaveFile ecalls enclaveFunctions appFunctions)) := by
  rw [scopeEvents_enclaveFile, declared_append, declared_append, declared_append,
    declared_functions primitivesPath]
  refine List.mem_append_right _ (List.mem_append_right _ (List.mem_append_right _ ?_))
  exact List.mem_map.2 ⟨F, hF, rfl⟩

theorem enclaveTop_resolvesIn {ecalls : Selectors} {F : GeneratedFunction}
    (hF : F ∈ enclaveTopFunctions enclaveFunctions appFunctions) :
    F.ResolvesIn []
      (declared (scopeEvents [] (enclaveFile ecalls enclaveFunctions appFunctions))) := by
  simp only [enclaveTopFunctions, List.mem_append, List.mem_map] at hF
  rcases hF with ⟨f, -, rfl⟩ | ⟨f, hf, rfl⟩
  · exact resolvesIn_of_references_eq_nil rfl
  · have hl : (if f.isVoidReturn then [] else
        [Statement.returnVariable "returnVal"]).flatMap Statement.references = [] := by
      split <;> rfl
    have hwrapper : appFunctionWrapperInEnclave f.toFunction ∈
        enclaveUnnamedFunctions enclaveFunctions appFunctions :=
      List.mem_append_right _ (List.mem_map.2 ⟨f, hf, rfl⟩)
    exact redirect_resolvesIn rfl hl (mem_declared_enclaveUnnamed hwrapper)

theorem asyloEnclaveInit_resolvesIn {ecalls : Selectors}
    (hecalls : ecalls.Perm (ecallSelectors (enclaveFunctions.map (·.toFunction)))) :
    (asyloEnclaveInit ecalls).ResolvesIn primitivesPath
      (declared (scopeEvents [] (enclaveFile ecalls enclaveFunctions appFunctions))) := by
  intro x hx
  obtain ⟨h, hh, rfl⟩ := mem_references_asyloEnclaveInit.1 hx
  rcases entryHandler_cases hecalls hh with ⟨f, hf, hname⟩ | hname
  · have hhandler : enclaveEcall f.toFunction ∈
        enclaveUnnamedFunctions enclaveFunctions appFunctions :=
      List.mem_append_left _ (List.mem_append_right _ (List.mem_map.2 ⟨f, hf, rfl⟩))
    rw [hname]
    exact ⟨_, mem_declared_enclaveUnnamed hhandler, resolvesTo_enclosing List.prefix_rfl _⟩
  · have habort : enclaveAbortFunction ∈
        enclaveUnnamedFunctions enclaveFunctions appFunctions :=
      List.mem_append_left _ (List.mem_append_left _ List.mem_cons_self)
    rw [hname]
    exact ⟨_, mem_declared_enclaveUnnamed habort, resolvesTo_enclosing List.prefix_rfl _⟩

theorem enclaveUnnamed_resolvesIn {ecalls : Selectors} {F : GeneratedFunction}
    (hF : F ∈ enclaveUnnamedFunctions enclaveFunctions appFunctions) :
    F.ResolvesIn primitivesPath
      (declared (scopeEvents [] (enclaveFile ecalls enclaveFunctions appFunctions))) := by
  simp only [enclaveUnnamedFunctions, List.mem_append, List.mem_singleton, List.mem_map] at hF
  rcases hF with (rfl | ⟨f, hf, rfl⟩) | ⟨f, -, rfl⟩
  · exact resolvesIn_of_references_eq_nil rfl
  · have hdeclared : externFunction f ∈ enclaveTopFunctions enclaveFunctions appFunctions :=
      List.mem_append_left _ (List.mem_map.2 ⟨f, hf, rfl⟩)
    exact handler_resolvesIn rfl rfl List.nil_prefix (mem_declared_enclaveTop hdeclared)
  · intro x hx
    exact absurd (mem_references_wrapper rfl rfl hx) List.not_mem_nil

/-- **Everything is in the enclave file**, if in the wrong order. -/
theorem enclaveFile_complete {ecalls : Selectors}
    (hecalls : ecalls.Perm (ecallSelectors (enclaveFunctions.map (·.toFunction)))) :
    EmitsReferences (enclaveFile ecalls enclaveFunctions appFunctions) := by
  unfold EmitsReferences
  rw [itemEvents_file]
  intro r hr
  rw [scopeEvents_enclaveFile, used_append, used_append, used_append] at hr
  simp only [List.mem_append] at hr
  rcases hr with htop | hinit | hfini | hunnamed
  · exact exists_of_mem_used_functions (fun _ => enclaveTop_resolvesIn) htop
  · rw [used_sourceEvents] at hinit
    obtain ⟨x, hx, rfl⟩ := List.mem_map.1 hinit
    exact asyloEnclaveInit_resolvesIn hecalls x hx
  · exact absurd hfini List.not_mem_nil
  · exact exists_of_mem_used_functions (fun _ => enclaveUnnamed_resolvesIn) hunnamed

theorem mem_declared_driverTop {F : GeneratedFunction}
    (hF : F ∈ driverTopFunctions enclaveFunctions appFunctions) :
    { path := [], name := F.function.getName } ∈
      declared (scopeEvents [] (driverFile enclaveFunctions appFunctions)) := by
  rw [scopeEvents_driverFile, declared_append, declared_functions]
  exact List.mem_append_left _ (List.mem_map.2 ⟨F, hF, rfl⟩)

theorem mem_declared_driverPrimitives {F : GeneratedFunction}
    (hF : F ∈ driverPrimitivesFunctions enclaveFunctions appFunctions) :
    { path := primitivesPath, name := F.function.getName } ∈
      declared (scopeEvents [] (driverFile enclaveFunctions appFunctions)) := by
  rw [scopeEvents_driverFile, declared_append, declared_append, declared_functions primitivesPath]
  refine List.mem_append_right _ (List.mem_append_left _ ?_)
  exact List.mem_map.2 ⟨F, hF, rfl⟩

theorem mem_declared_client :
    { path := primitivesPath, name := "client" } ∈
      declared (scopeEvents [] (driverFile enclaveFunctions appFunctions)) := by
  rw [scopeEvents_driverFile, declared_append, declared_append]
  exact List.mem_append_right _ (List.mem_append_right _ List.mem_cons_self)

theorem mem_references_oCallRegistration {x : Bool × String}
    (hx : x ∈ (oCallRegistration (appFunctions.map (·.toFunction))).references) :
    x = (false, "client") ∨ ∃ f ∈ appFunctions, x = (false, "insecure_" ++ f.getName) := by
  rw [GeneratedFunction.references_eq rfl] at hx
  obtain ⟨s, hs, hx⟩ := List.mem_flatMap.1 hx
  rcases List.mem_append.1 hs with hs | hs
  · rcases List.mem_pair.1 hs with rfl | rfl
    · exact .inl (List.mem_singleton.1 hx)
    · exact absurd hx List.not_mem_nil
  · obtain ⟨h, hh, rfl⟩ := List.mem_map.1 hs
    obtain ⟨f', hf', rfl⟩ := List.mem_map.1 hh
    obtain ⟨f, hf, rfl⟩ := List.mem_map.1 hf'
    rcases List.mem_pair.1 hx with rfl | rfl
    · exact .inl rfl
    · exact .inr ⟨f, hf, rfl⟩

theorem appDriverMain_resolvesIn : appDriverMain.ResolvesIn []
    (declared (scopeEvents [] (driverFile enclaveFunctions appFunctions))) := by
  intro x hx
  have hreferences : appDriverMain.references =
      [(true, "registerOCalls"), (false, "app_main")] := by decide
  rw [hreferences] at hx
  rcases List.mem_pair.1 hx with rfl | rfl
  · have hregistration : oCallRegistration (appFunctions.map (·.toFunction)) ∈
        driverPrimitivesFunctions enclaveFunctions appFunctions :=
      List.mem_append_left _ (List.mem_append_left _ List.mem_cons_self)
    exact ⟨_, mem_declared_driverPrimitives hregistration, resolvesTo_qualified _ _⟩
  · have happMain : externFunction appMain ∈ driverTopFunctions enclaveFunctions appFunctions :=
      List.mem_append_left _ (List.mem_append_left _ (List.mem_append_left _ List.mem_cons_self))
    exact ⟨_, mem_declared_driverTop happMain, resolvesTo_enclosing List.prefix_rfl _⟩

theorem driverTop_resolvesIn {F : GeneratedFunction}
    (hF : F ∈ driverTopFunctions enclaveFunctions appFunctions) :
    F.ResolvesIn [] (declared (scopeEvents [] (driverFile enclaveFunctions appFunctions))) := by
  simp only [driverTopFunctions, List.mem_append, List.mem_singleton, List.mem_map] at hF
  rcases hF with ((rfl | ⟨f, -, rfl⟩) | rfl) | ⟨f, hf, rfl⟩
  · exact resolvesIn_of_references_eq_nil rfl
  · exact resolvesIn_of_references_eq_nil rfl
  · exact appDriverMain_resolvesIn
  · have hwrapper : ecallWrapper f.toFunction ∈
        driverPrimitivesFunctions enclaveFunctions appFunctions :=
      List.mem_append_right _ (List.mem_map.2 ⟨f, hf, rfl⟩)
    exact redirect_resolvesIn (l := [.returnVariable "returnVal"]) rfl rfl
      (mem_declared_driverPrimitives hwrapper)

theorem oCallRegistration_resolvesIn :
    (oCallRegistration (appFunctions.map (·.toFunction))).ResolvesIn primitivesPath
      (declared (scopeEvents [] (driverFile enclaveFunctions appFunctions))) := by
  intro x hx
  rcases mem_references_oCallRegistration hx with rfl | ⟨f, hf, rfl⟩
  · exact ⟨_, mem_declared_client, resolvesTo_enclosing List.prefix_rfl _⟩
  · have hhandler : oCall f.toFunction ∈
        driverPrimitivesFunctions enclaveFunctions appFunctions :=
      List.mem_append_left _ (List.mem_append_right _ (List.mem_map.2 ⟨f, hf, rfl⟩))
    exact ⟨_, mem_declared_driverPrimitives hhandler, resolvesTo_enclosing List.prefix_rfl _⟩

theorem driverPrimitives_resolvesIn {F : GeneratedFunction}
    (hF : F ∈ driverPrimitivesFunctions enclaveFunctions appFunctions) :
    F.ResolvesIn primitivesPath
      (declared (scopeEvents [] (driverFile enclaveFunctions appFunctions))) := by
  simp only [driverPrimitivesFunctions, List.mem_append, List.mem_singleton, List.mem_map] at hF
  rcases hF with (rfl | ⟨f, hf, rfl⟩) | ⟨f, -, rfl⟩
  · exact oCallRegistration_resolvesIn
  · have hdeclared : externFunction f ∈ driverTopFunctions enclaveFunctions appFunctions := by
      refine List.mem_append_left _ (List.mem_append_left _ (List.mem_append_right _ ?_))
      exact List.mem_map.2 ⟨f, hf, rfl⟩
    exact handler_resolvesIn rfl rfl List.nil_prefix (mem_declared_driverTop hdeclared)
  · intro x hx
    cases List.mem_singleton.1 (mem_references_wrapper rfl rfl hx)
    exact ⟨_, mem_declared_client, resolvesTo_enclosing List.prefix_rfl _⟩

/-- **Everything is in the driver file**, if in the wrong order. -/
theorem driverFile_complete (enclaveFunctions appFunctions : List Signature) :
    EmitsReferences (driverFile enclaveFunctions appFunctions) := by
  unfold EmitsReferences
  rw [itemEvents_file]
  intro r hr
  rw [scopeEvents_driverFile, used_append, used_append] at hr
  simp only [List.mem_append] at hr
  rcases hr with htop | hprimitives | hclient
  · exact exists_of_mem_used_functions (fun _ => driverTop_resolvesIn) htop
  · exact exists_of_mem_used_functions (fun _ => driverPrimitives_resolvesIn) hprimitives
  · exact absurd hclient List.not_mem_nil

end Complete

/-- **The files never declare before use.** -/
theorem not_filesDeclareBeforeUse (enclaveFunctions appFunctions : List Signature) :
    ¬ FilesDeclareBeforeUse enclaveFunctions appFunctions := fun h =>
  driverFile_not_declaresBeforeUse enclaveFunctions appFunctions (h _ (List.Perm.refl _)).2

/-- `int collision(snake_t *snake, screen_t *screen)` -/
def collision : Signature :=
  signature "collision" { name := "int" }
    [{ type := { name := "snake_t", isPtr := true }, name := "snake" },
      { type := { name := "screen_t", isPtr := true }, name := "screen" }]

/-- `void draw_line(int col, int row)` -/
def drawLine : Signature :=
  signature "draw_line" { name := "void" }
    [{ type := { name := "int" }, name := "col" }, { type := { name := "int" }, name := "row" }]

theorem snake_not_filesDeclareBeforeUse : ¬ FilesDeclareBeforeUse [collision] [drawLine] := fun h =>
  driverFile_not_declaresBeforeUse [collision] [drawLine] (h _ (List.Perm.refl _)).2

example : (declared (scopeEvents [] (driverFile [collision] [drawLine]))).map (·.name) =
    ["app_main", "draw_line", "main", "collision", "registerOCalls", "insecure_draw_line",
      "collision", "client"] := by
  decide

end SGXCodeGenerator

end Vazgen
