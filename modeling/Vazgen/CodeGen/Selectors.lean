import Mathlib.Data.Finset.Basic
import Mathlib.Data.Finset.Dedup
import Vazgen.CodeGen.SGXCodeGenerator
import Vazgen.Lib.NumberedMap

/-!
# The selectors of ECALLs and OCALLs

A selector's value is the position of its function in the list; the value of the abort selector is
one more than the number of distinct names.  When a name occurs more than once the two can meet
(`dispatchUnique_iff`), and a function named `Abort` takes the abort selector's name.
-/

namespace Vazgen

open NumberedMap

/-! ## The functions found -/

/-- `clang::FunctionDecl`: what `getFunctionFromClangDecl` makes of it, whether its translation unit
defines the function, and whether it does so itself. -/
structure FunctionDecl where
  function : Function
  isDefined : Bool := false
  isThisDeclarationADefinition : Bool := false

structure FunctionFinder where
  functionsNames : Finset String
  foundFunctions : List Function := []

namespace FunctionFinder

def run (finder : FunctionFinder) (decl : FunctionDecl) : FunctionFinder :=
  if decl.function.getName ∉ finder.functionsNames then finder
  else if decl.isDefined && !decl.isThisDeclarationADefinition then finder
  else
    { functionsNames :=
        if decl.isDefined then finder.functionsNames.erase decl.function.getName
        else finder.functionsNames
      foundFunctions := finder.foundFunctions ++ [decl.function] }

/-- The functions found in the declarations of the program, in the order of the match callbacks. -/
def getFunctions (functions : Finset String) (decls : List FunctionDecl) : List Function :=
  (decls.foldl run { functionsNames := functions }).foundFunctions

/-- Declarations without definition are delivered as often as they occur, so every list can be. -/
theorem getFunctions_declarations (l : List Function) :
    getFunctions (l.map (·.getName)).toFinset (l.map fun f => { function := f }) = l := by
  have hfold : ∀ (l found : List Function) (names : Finset String),
      (∀ f ∈ l, f.getName ∈ names) →
      (l.map fun f => ({ function := f } : FunctionDecl)).foldl run
        { functionsNames := names, foundFunctions := found } =
      { functionsNames := names, foundFunctions := found ++ l } := by
    intro l
    induction l with
    | nil => simp
    | cons f l ih =>
      intro found names hl
      have hf : f.getName ∈ names := hl f List.mem_cons_self
      rw [List.map_cons, List.foldl_cons, run, if_neg (not_not_intro hf)]
      simpa using ih (found ++ [f]) names fun g hg => hl g (List.mem_cons_of_mem f hg)
  unfold getFunctions
  rw [hfold l [] _ fun f hf => List.mem_toFinset.2 (List.mem_map_of_mem hf)]
  exact List.nil_append l

end FunctionFinder

/-! ## The generated selectors -/

namespace SGXCodeGenerator

structure FunctionSelector where
  functionName : String
  selectorName : String
  selectorValue : String

/-- `unordered_map<std::string, FunctionSelector>` -/
abbrev Selectors : Type := List (String × FunctionSelector)

def selectorValue (i : Nat) : String := "kSelectorUser + " ++ i.repr

def ecallSelector (enclaveF : Function) (i : Nat) : FunctionSelector where
  functionName := enclaveF.getName
  selectorName := "k" ++ enclaveF.getName ++ "EnclaveSelector"
  selectorValue := selectorValue i

def ocallSelector (appF : Function) (i : Nat) : FunctionSelector where
  functionName := appF.getName
  selectorName := "k" ++ appF.getName ++ "OCallHandler"
  selectorValue := selectorValue i

/-- `m_ecallSelectors` -/
def ecallSelectors (enclaveFunctions : List Function) : Selectors :=
  fill (·.getName) ecallSelector enclaveFunctions

/-- `m_ocallSelectors` -/
def ocallSelectors (appFunctions : List Function) : Selectors :=
  fill (·.getName) ocallSelector appFunctions

/-- `m_ecallSelectors[name].m_selectorName` -/
def selectorNameOf (selectors : Selectors) (name : String) : String :=
  ((selectors.lookup name).map (·.selectorName)).getD ""

/-- The definition of a selector: a global variable and its value. -/
def selectorGlobal (name value : String) : Variable × String :=
  ({ type := { name := "uint64_t", qualifier := "constexpr" }, name := name }, value)

/-- The definitions of the ECALL selectors, of which there are the map's in its order and the one
for the abort function. -/
def ecallGlobals (ecalls : Selectors) : List (Variable × String) :=
  (ecalls.map fun e => selectorGlobal e.2.selectorName e.2.selectorValue) ++
    [selectorGlobal "kAbortEnclaveSelector" (selectorValue (ecalls.length + 1))]

def ocallGlobals (ocalls : Selectors) : List (Variable × String) :=
  ocalls.map fun e => selectorGlobal e.2.selectorName e.2.selectorValue

/-- The globals of `interface_selectors.h`; the maps are listed in the order they iterate in. -/
def generateInterfaceSelectors (ecalls ocalls : Selectors) : List (Variable × String) :=
  ecallGlobals ecalls ++ ocallGlobals ocalls

/-! ## The registered handlers -/

/-- Selectors and the handlers that `generateAsyloEnclaveInitFunction` registers under them. -/
def entryHandlers (ecalls : Selectors) : List (String × String) :=
  (ecalls.map fun e => (e.2.selectorName, "secure_" ++ e.2.functionName)) ++
    [("kAbortEnclaveSelector", "Abort")]

def generateAsyloEnclaveInitFunction (ecalls : Selectors) : Function where
  getName := "asylo_enclave_init"
  getReturnType := { name := "PrimitiveStatus" }
  body :=
    ((entryHandlers ecalls).map fun h => .text
      (" ASYLO_RETURN_IF_ERROR(TrustedPrimitives::RegisterEntryHandler(" ++ h.1 ++
        ", EntryHandler\x7b" ++ h.2 ++ "\x7d))")) ++
    [.text "return PrimitiveStatus::OkStatus()"]

/-- Selectors and the handlers that `generateOCallRegistration` registers under them. -/
def exitHandlers (appFunctions : List Function) : List (String × String) :=
  appFunctions.map fun appF =>
    (selectorNameOf (ocallSelectors appFunctions) appF.getName, "insecure_" ++ appF.getName)

def generateOCallRegistration (appFunctions : List Function) : Function where
  getName := "registerOCalls"
  getReturnType := { name := "Status" }
  body :=
    [.text ("ASYLO_ASSIGN_OR_RETURN(client, LoadEnclave<SimBackend>(FLAGS_enclave_path, " ++
        "absl::make_unique<DispatchTable>()));"),
      .text "Status status"] ++
    (exitHandlers appFunctions).map fun h => .text
      ("status = client->exit_call_provider()->RegisterExitHandler(" ++ h.1 ++
        ", ExitHandler\x7b" ++ h.2 ++ "\x7d)")

/-! ## Dispatch -/

/-- The call of a wrapper through a selector. -/
def enclaveCall (selector : String) : Instruction :=
  .call (some "auto status") ("client->EnclaveCall(" ++ selector ++ ", &params)")

def untrustedCall (selector : String) : Instruction :=
  .call none ("ASYLO_RETURN_IF_ERROR(TrustedPrimitives::UntrustedCall(" ++ selector ++ ", &params))")

/-- The selector is emitted, it is the one that the wrapper calls, and the handler is the only one
that is registered under it. -/
structure Dispatches (globals : List (Variable × String)) (handlers : List (String × String))
    (call : String → Instruction) (selector : String) (wrapper handler : Function) : Prop where
  emitted : selector ∈ globals.map (·.1.name)
  called : wrapper.body.filter isCall = [call selector]
  registered : (selector, handler.getName) ∈ handlers
  unique : ∀ h, (selector, h) ∈ handlers → h = handler.getName

/-- The selectors of each table are distinct in name and in value, and every wrapper reaches the
handler generated for its function. -/
structure DispatchUniqueIn (enclaveFunctions appFunctions : List Function)
    (ecalls ocalls : Selectors) : Prop where
  ecallNames : ((ecallGlobals ecalls).map (·.1.name)).Nodup
  ecallValues : ((ecallGlobals ecalls).map (·.2)).Nodup
  ocallNames : ((ocallGlobals ocalls).map (·.1.name)).Nodup
  ocallValues : ((ocallGlobals ocalls).map (·.2)).Nodup
  ecalls : ∀ f ∈ enclaveFunctions, Dispatches (ecallGlobals ecalls) (entryHandlers ecalls)
    enclaveCall (selectorNameOf (ecallSelectors enclaveFunctions) f.getName)
    (generateEcallWrapper f) (generateEnclaveEcall f)
  ocalls : ∀ f ∈ appFunctions, Dispatches (ocallGlobals ocalls) (exitHandlers appFunctions)
    untrustedCall (selectorNameOf (ocallSelectors appFunctions) f.getName)
    (generateAppFunctionWrapperInEnclave f) (generateOCall f)

/-- Dispatch is unique in whatever order the two maps are iterated. -/
def DispatchUnique (enclaveFunctions appFunctions : List Function) : Prop :=
  ∀ ecalls ocalls, ecalls.Perm (ecallSelectors enclaveFunctions) →
    ocalls.Perm (ocallSelectors appFunctions) →
    DispatchUniqueIn enclaveFunctions appFunctions ecalls ocalls

/-- No function is called `Abort`, and the function at the position that is the number of distinct
names, if there is one, has the name of a function before it. -/
structure AbortSelectorFree (enclaveFunctions : List Function) : Prop where
  name : ∀ f ∈ enclaveFunctions, f.getName ≠ "Abort"
  value : ∀ f, enclaveFunctions[(enclaveFunctions.map (·.getName)).dedup.length]? = some f →
    f.getName ∈
      (enclaveFunctions.take (enclaveFunctions.map (·.getName)).dedup.length).map (·.getName)

/-! ## Names and values -/

theorem selectorValue_inj {i j : Nat} : selectorValue i = selectorValue j ↔ i = j := by
  unfold selectorValue
  rw [String.append_right_inj]
  refine ⟨fun h => ?_, congrArg Nat.repr⟩
  have hdigits : Nat.toDigits 10 i = Nat.toDigits 10 j := by
    rw [← Nat.toList_repr, ← Nat.toList_repr, h]
  rw [← Nat.ofDigitChars_ten_toDigits (n := i), hdigits, Nat.ofDigitChars_ten_toDigits]

theorem selectorName_inj {suffix a b : String} :
    "k" ++ a ++ suffix = "k" ++ b ++ suffix ↔ a = b := by
  rw [String.append_left_inj, String.append_right_inj]

section Table

variable (suffix : String) (selector : Function → Nat → FunctionSelector)

/-- The entries of a map: the selector's name and the function's come from the key. -/
theorem entry_eq (hname : ∀ f i, (selector f i).selectorName = "k" ++ f.getName ++ suffix)
    (hfun : ∀ f i, (selector f i).functionName = f.getName) {l : List Function}
    {e : String × FunctionSelector} (he : e ∈ fill (·.getName) selector l) :
    e.2.selectorName = "k" ++ e.1 ++ suffix ∧ e.2.functionName = e.1 := by
  obtain ⟨before, f, after, -, -, rfl⟩ := mem_fill_iff.1 he
  exact ⟨hname f _, hfun f _⟩

theorem nodup_selectorNames
    (hname : ∀ f i, (selector f i).selectorName = "k" ++ f.getName ++ suffix)
    (hfun : ∀ f i, (selector f i).functionName = f.getName) (l : List Function) :
    ((fill (·.getName) selector l).map (·.2.selectorName)).Nodup := by
  have hkeys : (fill (·.getName) selector l).map (·.2.selectorName) =
      ((fill (·.getName) selector l).map (·.1)).map fun name => "k" ++ name ++ suffix := by
    rw [List.map_map]
    exact List.map_congr_left fun e he => (entry_eq suffix selector hname hfun he).1
  rw [hkeys]
  exact (nodup_keys_fill l).map fun a b h => selectorName_inj.1 h

omit suffix in
theorem nodup_selectorValues (hvalue : ∀ f i, (selector f i).selectorValue = selectorValue i)
    (l : List Function) : ((fill (·.getName) selector l).map (·.2.selectorValue)).Nodup :=
  nodup_map_fill (fun a b i j h => by
    rw [hvalue, hvalue] at h
    exact selectorValue_inj.1 h) l

end Table

/-- The map has an entry for every function, under its selector's name. -/
theorem exists_entry (suffix : String) (selector : Function → Nat → FunctionSelector)
    (hname : ∀ f i, (selector f i).selectorName = "k" ++ f.getName ++ suffix)
    (hfun : ∀ f i, (selector f i).functionName = f.getName) {l : List Function} {f : Function}
    (hf : f ∈ l) : ∃ s, (f.getName, s) ∈ fill (·.getName) selector l ∧
      s.selectorName = "k" ++ f.getName ++ suffix ∧ s.functionName = f.getName := by
  have hkey : f.getName ∈ (fill (·.getName) selector l).map (·.1) :=
    mem_keys_fill.2 (List.mem_map_of_mem hf)
  obtain ⟨e, he, hfe⟩ := List.mem_map.1 hkey
  have hentry := entry_eq suffix selector hname hfun he
  refine ⟨e.2, ?_, ?_, ?_⟩
  · rw [← hfe]
    exact he
  · rw [← hfe]
    exact hentry.1
  · rw [← hfe]
    exact hentry.2

/-- The selector that a wrapper looks up. -/
theorem selectorNameOf_fill (suffix : String) (selector : Function → Nat → FunctionSelector)
    (hname : ∀ f i, (selector f i).selectorName = "k" ++ f.getName ++ suffix)
    (hfun : ∀ f i, (selector f i).functionName = f.getName) {l : List Function} {f : Function}
    (hf : f ∈ l) :
    selectorNameOf (fill (·.getName) selector l) f.getName = "k" ++ f.getName ++ suffix := by
  obtain ⟨s, hs, hselector, -⟩ := exists_entry suffix selector hname hfun hf
  rw [selectorNameOf, lookup_eq_some (nodup_keys_fill l) hs]
  exact hselector

theorem selectorNameOf_ecallSelectors {enclaveFunctions : List Function} {f : Function}
    (hf : f ∈ enclaveFunctions) :
    selectorNameOf (ecallSelectors enclaveFunctions) f.getName =
      "k" ++ f.getName ++ "EnclaveSelector" :=
  selectorNameOf_fill _ ecallSelector (fun _ _ => rfl) (fun _ _ => rfl) hf

theorem selectorNameOf_ocallSelectors {appFunctions : List Function} {f : Function}
    (hf : f ∈ appFunctions) :
    selectorNameOf (ocallSelectors appFunctions) f.getName =
      "k" ++ f.getName ++ "OCallHandler" :=
  selectorNameOf_fill _ ocallSelector (fun _ _ => rfl) (fun _ _ => rfl) hf

theorem filter_isCall_pushes (xs : List Variable) :
    (xs.map fun p => Instruction.pushAlloc p.type p.name false).filter isCall = [] := by
  refine List.filter_eq_nil_iff.2 fun i hi => ?_
  obtain ⟨p, -, rfl⟩ := List.mem_map.1 hi
  exact Bool.false_ne_true

theorem filter_isCall_pops (xs : List Variable) :
    (xs.map fun p => Instruction.pop p.type p.name false false).filter isCall = [] := by
  refine List.filter_eq_nil_iff.2 fun i hi => ?_
  obtain ⟨p, -, rfl⟩ := List.mem_map.1 hi
  exact Bool.false_ne_true

theorem enclaveCall_eq (name : String) :
    enclaveCall ("k" ++ name ++ "EnclaveSelector") = .call (some "auto status")
      ("client->EnclaveCall(k" ++ name ++ "EnclaveSelector, &params)") := by
  have hpre : "client->EnclaveCall(k" = "client->EnclaveCall(" ++ "k" := by decide
  have hpost : "EnclaveSelector, &params)" = "EnclaveSelector" ++ ", &params)" := by decide
  rw [enclaveCall, hpre, hpost]
  simp only [String.append_assoc]

theorem untrustedCall_eq (name : String) :
    untrustedCall ("k" ++ name ++ "OCallHandler") = .call none
      ("ASYLO_RETURN_IF_ERROR(TrustedPrimitives::UntrustedCall(k" ++ name ++
        "OCallHandler, &params))") := by
  have hpre : "ASYLO_RETURN_IF_ERROR(TrustedPrimitives::UntrustedCall(k" =
      "ASYLO_RETURN_IF_ERROR(TrustedPrimitives::UntrustedCall(" ++ "k" := by decide
  have hpost : "OCallHandler, &params))" = "OCallHandler" ++ ", &params))" := by decide
  rw [untrustedCall, hpre, hpost]
  simp only [String.append_assoc]

theorem isCall_generateEcallWrapper (f : Function) :
    (generateEcallWrapper f).body.filter isCall =
      [enclaveCall ("k" ++ f.getName ++ "EnclaveSelector")] := by
  rw [enclaveCall_eq]
  simp only [generateEcallWrapper, List.filter_append, filter_isCall_pushes, filter_isCall_pops]
  rfl

theorem isCall_generateAppFunctionWrapperInEnclave (f : Function) :
    (generateAppFunctionWrapperInEnclave f).body.filter isCall =
      [untrustedCall ("k" ++ f.getName ++ "OCallHandler")] := by
  rw [untrustedCall_eq]
  simp only [generateAppFunctionWrapperInEnclave, List.filter_append, filter_isCall_pushes,
    filter_isCall_pops]
  rfl

/-! ## The order of iteration -/

section Order

variable {enclaveFunctions appFunctions : List Function} {ecalls ecalls' ocalls ocalls' : Selectors}

theorem perm_ecallGlobals (h : ecalls.Perm ecalls') :
    (ecallGlobals ecalls).Perm (ecallGlobals ecalls') := by
  unfold ecallGlobals
  rw [h.length_eq]
  exact (h.map _).append_right _

theorem perm_entryHandlers (h : ecalls.Perm ecalls') :
    (entryHandlers ecalls).Perm (entryHandlers ecalls') := (h.map _).append_right _

theorem Dispatches.perm {globals globals' : List (Variable × String)}
    {handlers handlers' : List (String × String)} {call : String → Instruction} {selector : String}
    {wrapper handler : Function} (hg : globals.Perm globals') (hh : handlers.Perm handlers')
    (h : Dispatches globals handlers call selector wrapper handler) :
    Dispatches globals' handlers' call selector wrapper handler where
  emitted := (hg.map _).mem_iff.1 h.emitted
  called := h.called
  registered := hh.mem_iff.1 h.registered
  unique e he := h.unique e (hh.mem_iff.2 he)

/-- The order in which the maps are iterated has no influence. -/
theorem DispatchUniqueIn.perm (he : ecalls.Perm ecalls') (ho : ocalls.Perm ocalls')
    (h : DispatchUniqueIn enclaveFunctions appFunctions ecalls ocalls) :
    DispatchUniqueIn enclaveFunctions appFunctions ecalls' ocalls' where
  ecallNames := ((perm_ecallGlobals he).map _).nodup_iff.1 h.ecallNames
  ecallValues := ((perm_ecallGlobals he).map _).nodup_iff.1 h.ecallValues
  ocallNames := ((ho.map _).map _).nodup_iff.1 h.ocallNames
  ocallValues := ((ho.map _).map _).nodup_iff.1 h.ocallValues
  ecalls f hf := (h.ecalls f hf).perm (perm_ecallGlobals he) (perm_entryHandlers he)
  ocalls f hf := (h.ocalls f hf).perm (ho.map _) (.refl _)

end Order

/-! ## The ECALL table -/

section ECalls

variable (enclaveFunctions : List Function)

theorem ecallNames_iff :
    ((ecallGlobals (ecallSelectors enclaveFunctions)).map (·.1.name)).Nodup ↔
      ∀ f ∈ enclaveFunctions, f.getName ≠ "Abort" := by
  have habort : "kAbortEnclaveSelector" = "k" ++ "Abort" ++ "EnclaveSelector" := by decide
  have hmem : "kAbortEnclaveSelector" ∈
      (ecallSelectors enclaveFunctions).map (·.2.selectorName) ↔
        ∃ f ∈ enclaveFunctions, f.getName = "Abort" := by
    constructor
    · intro h
      obtain ⟨e, he, hname⟩ := List.mem_map.1 h
      rw [(entry_eq _ ecallSelector (fun _ _ => rfl) (fun _ _ => rfl) he).1, habort,
        selectorName_inj] at hname
      have hkey := mem_keys_fill.1 (List.mem_map_of_mem (f := (·.1)) he)
      rw [hname] at hkey
      exact List.mem_map.1 hkey
    · rintro ⟨f, hf, hname⟩
      obtain ⟨s, hs, hselector, -⟩ := exists_entry "EnclaveSelector" ecallSelector
        (fun _ _ => rfl) (fun _ _ => rfl) hf
      rw [hname, ← habort] at hselector
      exact List.mem_map.2 ⟨(f.getName, s), hs, hselector⟩
  have hnodup : ((ecallSelectors enclaveFunctions).map (·.2.selectorName)).Nodup :=
    nodup_selectorNames "EnclaveSelector" ecallSelector (fun _ _ => rfl) (fun _ _ => rfl) _
  unfold ecallGlobals
  rw [List.map_append, List.map_map, List.map_singleton, List.nodup_append]
  constructor
  · rintro ⟨-, -, hdisj⟩ f hf hname
    exact hdisj _ (hmem.2 ⟨f, hf, hname⟩) _ (List.mem_singleton_self _) rfl
  · intro h
    refine ⟨hnodup, List.nodup_singleton _, ?_⟩
    rintro a ha b hb rfl
    rw [List.mem_singleton.1 hb] at ha
    obtain ⟨f, hf, hname⟩ := hmem.1 ha
    exact h f hf hname

theorem ecallValues_iff :
    ((ecallGlobals (ecallSelectors enclaveFunctions)).map (·.2)).Nodup ↔
      ∀ f, enclaveFunctions[(enclaveFunctions.map (·.getName)).dedup.length]? = some f →
        f.getName ∈ (enclaveFunctions.take
          (enclaveFunctions.map (·.getName)).dedup.length).map (·.getName) := by
  have hlength : (ecallSelectors enclaveFunctions).length =
      (enclaveFunctions.map (·.getName)).dedup.length := length_fill _
  generalize (enclaveFunctions.map (·.getName)).dedup.length = d at hlength
  have hmem : selectorValue (d + 1) ∈
      (ecallSelectors enclaveFunctions).map (·.2.selectorValue) ↔
        ∃ f, enclaveFunctions[d]? = some f ∧
          f.getName ∉ (enclaveFunctions.take d).map (·.getName) := by
    constructor
    · intro h
      obtain ⟨e, he, hvalue⟩ := List.mem_map.1 h
      obtain ⟨before, f, after, hl, hf, rfl⟩ := mem_fill_iff.1 he
      have hpos : before.length + 1 = d + 1 := selectorValue_inj.1 hvalue
      have hd : before.length = d := by omega
      subst hd
      rw [hl, List.take_left']
      · exact ⟨f, by simp, hf⟩
      · rfl
    · rintro ⟨f, hf, hno⟩
      obtain ⟨hd, rfl⟩ := List.getElem?_eq_some_iff.1 hf
      have hl : enclaveFunctions = enclaveFunctions.take d ++ enclaveFunctions[d] ::
          enclaveFunctions.drop (d + 1) := by
        rw [List.getElem_cons_drop, List.take_append_drop]
      refine List.mem_map.2 ⟨_, mem_fill_iff.2 ⟨_, _, _, hl, hno, rfl⟩, ?_⟩
      rw [List.length_take_of_le (Nat.le_of_lt hd)]
      rfl
  unfold ecallGlobals
  rw [List.map_append, List.map_map, List.map_singleton, List.nodup_append, hlength]
  constructor
  · rintro ⟨-, -, hdisj⟩ f hf
    by_contra hno
    exact hdisj _ (hmem.2 ⟨f, hf, hno⟩) _ (List.mem_singleton_self _) rfl
  · intro h
    refine ⟨nodup_selectorValues ecallSelector (fun _ _ => rfl) _, List.nodup_singleton _, ?_⟩
    rintro a ha b hb rfl
    rw [List.mem_singleton.1 hb] at ha
    obtain ⟨f, hf, hno⟩ := hmem.1 ha
    exact hno (h f hf)

variable {enclaveFunctions} {f : Function}

/-- Without a function `Abort` the handler of each function is the only one under its selector. -/
theorem ecall_dispatches (habort : ∀ f ∈ enclaveFunctions, f.getName ≠ "Abort")
    (hf : f ∈ enclaveFunctions) :
    Dispatches (ecallGlobals (ecallSelectors enclaveFunctions))
      (entryHandlers (ecallSelectors enclaveFunctions)) enclaveCall
      (selectorNameOf (ecallSelectors enclaveFunctions) f.getName) (generateEcallWrapper f)
      (generateEnclaveEcall f) := by
  obtain ⟨s, hs, hselector, hfun⟩ := exists_entry "EnclaveSelector" ecallSelector
    (fun _ _ => rfl) (fun _ _ => rfl) hf
  rw [selectorNameOf_ecallSelectors hf]
  refine ⟨?_, isCall_generateEcallWrapper f, ?_, fun h hh => ?_⟩
  · refine List.mem_map.2 ⟨selectorGlobal s.selectorName s.selectorValue, ?_, hselector⟩
    exact List.mem_append_left _ (List.mem_map.2 ⟨_, hs, rfl⟩)
  · refine List.mem_append_left _ (List.mem_map.2 ⟨_, hs, ?_⟩)
    rw [hselector, hfun]
    rfl
  · rcases List.mem_append.1 hh with hh | hh
    · obtain ⟨e, he, heq⟩ := List.mem_map.1 hh
      obtain ⟨hname, hhandler⟩ := Prod.mk.inj heq
      obtain ⟨hename, hefun⟩ := entry_eq _ ecallSelector (fun _ _ => rfl) (fun _ _ => rfl) he
      rw [hename, selectorName_inj] at hname
      rw [← hhandler, hefun, hname]
      rfl
    · have hk : "kAbortEnclaveSelector" = "k" ++ "Abort" ++ "EnclaveSelector" := by decide
      have hname := (Prod.mk.inj (List.mem_singleton.1 hh)).1
      rw [hk, selectorName_inj] at hname
      exact absurd hname (habort f hf)

end ECalls

/-! ## The OCALL table -/

section OCalls

variable {appFunctions : List Function} {f : Function}

theorem ocall_dispatches (hf : f ∈ appFunctions) :
    Dispatches (ocallGlobals (ocallSelectors appFunctions)) (exitHandlers appFunctions)
      untrustedCall (selectorNameOf (ocallSelectors appFunctions) f.getName)
      (generateAppFunctionWrapperInEnclave f) (generateOCall f) := by
  obtain ⟨s, hs, hselector, -⟩ := exists_entry "OCallHandler" ocallSelector
    (fun _ _ => rfl) (fun _ _ => rfl) hf
  refine ⟨?_, ?_, List.mem_map.2 ⟨f, hf, rfl⟩, fun h hh => ?_⟩
  · rw [selectorNameOf_ocallSelectors hf]
    refine List.mem_map.2 ⟨selectorGlobal s.selectorName s.selectorValue, ?_, hselector⟩
    exact List.mem_map.2 ⟨_, hs, rfl⟩
  · rw [selectorNameOf_ocallSelectors hf]
    exact isCall_generateAppFunctionWrapperInEnclave f
  · obtain ⟨g, hg, heq⟩ := List.mem_map.1 hh
    obtain ⟨hname, hhandler⟩ := Prod.mk.inj heq
    rw [selectorNameOf_ocallSelectors hg, selectorNameOf_ocallSelectors hf, selectorName_inj]
      at hname
    rw [← hhandler, hname]
    rfl

theorem nodup_ocallGlobals (appFunctions : List Function) :
    ((ocallGlobals (ocallSelectors appFunctions)).map (·.1.name)).Nodup ∧
      ((ocallGlobals (ocallSelectors appFunctions)).map (·.2)).Nodup := by
  unfold ocallGlobals
  rw [List.map_map, List.map_map]
  exact ⟨nodup_selectorNames "OCallHandler" ocallSelector (fun _ _ => rfl) (fun _ _ => rfl) _,
    nodup_selectorValues ocallSelector (fun _ _ => rfl) _⟩

end OCalls

/-! ## Top theorem -/

/-- **Dispatch is unique** exactly when nothing meets the abort selector. -/
theorem dispatchUnique_iff (enclaveFunctions appFunctions : List Function) :
    DispatchUnique enclaveFunctions appFunctions ↔ AbortSelectorFree enclaveFunctions := by
  constructor
  · intro h
    have hunique := h _ _ (.refl _) (.refl _)
    exact ⟨(ecallNames_iff _).1 hunique.ecallNames, (ecallValues_iff _).1 hunique.ecallValues⟩
  · intro h ecalls ocalls he ho
    have hunique : DispatchUniqueIn enclaveFunctions appFunctions (ecallSelectors enclaveFunctions)
        (ocallSelectors appFunctions) :=
      { ecallNames := (ecallNames_iff _).2 h.name
        ecallValues := (ecallValues_iff _).2 h.value
        ocallNames := (nodup_ocallGlobals appFunctions).1
        ocallValues := (nodup_ocallGlobals appFunctions).2
        ecalls := fun f hf => ecall_dispatches h.name hf
        ocalls := fun f hf => ocall_dispatches hf }
    exact hunique.perm he.symm ho.symm

/-- A declaration of `a` in one translation unit, its definition and the one of `b` in another. -/
def repeatedDecls : List FunctionDecl :=
  [{ function := { getName := "a" } },
    { function := { getName := "a" }, isDefined := true, isThisDeclarationADefinition := true },
    { function := { getName := "b" }, isDefined := true, isThisDeclarationADefinition := true }]

/-- The finder delivers `a`, `a`, `b`; `b` and the abort function share a value. -/
theorem repeated_clash :
    (FunctionFinder.getFunctions {"a", "b"} repeatedDecls).map (·.getName) = ["a", "a", "b"] ∧
      (ecallGlobals (ecallSelectors (FunctionFinder.getFunctions {"a", "b"} repeatedDecls))).map
        (fun g => (g.1.name, g.2)) =
          [("kaEnclaveSelector", "kSelectorUser + 1"), ("kbEnclaveSelector", "kSelectorUser + 3"),
            ("kAbortEnclaveSelector", "kSelectorUser + 3")] ∧
      ¬ DispatchUnique (FunctionFinder.getFunctions {"a", "b"} repeatedDecls) [] := by
  refine ⟨by decide, by decide, fun h => ?_⟩
  have hvalues := (h _ _ (.refl _) (.refl _)).ecallValues
  revert hvalues
  decide

end SGXCodeGenerator

end Vazgen
