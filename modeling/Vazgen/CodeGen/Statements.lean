import Vazgen.CodeGen.Selectors
import Vazgen.Lib.Scoping

/-!
# The statements of the generated bodies

The generator writes bodies as text.  Here each body is given as a list of statements, together with
a proof that their text is the one that the generator writes.
-/

namespace Vazgen

open Scoping

/-- `type == void`, which is not what `isVoidReturn` asks: `void*` is not void. -/
def CType.isVoid (type : CType) : Bool := type.name == "void" && !type.isPtr && !type.isArray

/-- A function as `getFunctionFromClangDecl` makes it, without a body. -/
structure Signature extends Function where
  body_eq : body = []

def signature (getName : String) (getReturnType : CType) (getParams : List Variable) :
    Signature where
  getName := getName
  getReturnType := getReturnType
  getParams := getParams
  body_eq := rfl

/-- A function whose parameters have names, distinct ones. -/
structure NamedSignature extends Signature where
  nodup : (getParams.map (·.name)).Nodup
  named : ∀ p ∈ getParams, p.name ≠ "" ∧ p.name ≠ "returnVal"

inductive Statement where
  | declare (typeStr varName : String)
  | pushAlloc (type : CType) (varName : String) (isStackPtr : Bool)
  | pop (type : CType) (varName : String) (isStackPtr isNewVar : Bool)
  /-- a call of `callee`, or of `asylo::primitives::callee`, each argument with the operator in front
  of it, and the variable that the result is assigned to -/
  | call (result : Option String) (isQualified : Bool) (callee : Function)
      (arguments : List (String × String))
  | enclaveCall (selector : String)
  | untrustedCall (selector : String)
  | registerEntryHandler (selector handler : String)
  | registerExitHandler (selector handler : String)
  | loadEnclave
  | returnVariable (varName : String)
  | returnValue (value : String)
  /-- any other statement, and the local variables that it uses -/
  | other (instr : String) (varNames : List String)

namespace Statement

/-- The statement as the generator writes it. -/
def toInstruction : Statement → Instruction
  | declare typeStr varName => .text (typeStr ++ (" " ++ varName))
  | pushAlloc type varName isStackPtr => .pushAlloc type varName isStackPtr
  | pop type varName isStackPtr isNewVar => .pop type varName isStackPtr isNewVar
  | call result isQualified callee arguments =>
    .call result ((if isQualified then "asylo::primitives::" else "") ++
      callee.getCallAsString (arguments.map fun a => a.1 ++ a.2))
  | enclaveCall selector => SGXCodeGenerator.enclaveCall selector
  | untrustedCall selector => SGXCodeGenerator.untrustedCall selector
  | registerEntryHandler selector handler =>
    .text (" ASYLO_RETURN_IF_ERROR(TrustedPrimitives::RegisterEntryHandler(" ++ selector ++
      ", EntryHandler\x7b" ++ handler ++ "\x7d))")
  | registerExitHandler selector handler =>
    .text ("status = client->exit_call_provider()->RegisterExitHandler(" ++ selector ++
      ", ExitHandler\x7b" ++ handler ++ "\x7d)")
  | loadEnclave =>
    .text ("ASYLO_ASSIGN_OR_RETURN(client, LoadEnclave<SimBackend>(FLAGS_enclave_path, " ++
      "absl::make_unique<DispatchTable>()));")
  | returnVariable varName => .text ("return " ++ varName)
  | returnValue value => .text ("return " ++ value)
  | other instr _ => .text instr

/-- The local variables that a statement declares, reads and assigns, in the order in which it does.
The push of an array is two statements, the second of which uses the variable that the first one
declares. -/
def events : Statement → List (Event String String)
  | declare _ varName => [.declare varName]
  | pushAlloc type varName _ =>
    if type.isArray then
      [.use "params", .use varName, .declare (varName ++ "_ext"), .use (varName ++ "_ext"),
        .use varName]
    else [.use "params", .use varName]
  | pop _ varName _ isNewVar => [.use "params", if isNewVar then .declare varName else .use varName]
  | call result _ _ arguments => (arguments.map (·.2) ++ result.toList).map .use
  | enclaveCall _ => [.use "params", .declare "status"]
  | untrustedCall _ => [.use "params"]
  | registerExitHandler _ _ => [.use "status"]
  | returnVariable varName => [.use varName]
  | other _ varNames => varNames.map .use
  | registerEntryHandler _ _ | loadEnclave | returnValue _ => []

def isReturn : Statement → Bool
  | returnVariable _ | returnValue _ => true
  | _ => false

end Statement

/-- A generated function, its body read as statements. -/
structure GeneratedFunction where
  function : Function
  statements : List Statement
  body_eq : function.body = statements.map Statement.toInstruction

namespace SGXCodeGenerator

/-! ## Handlers -/

def popArgumentStatements (f : Function) (isNewReturnVal : Bool) : List Statement :=
  (if f.isVoidReturn then [] else [.pop f.getReturnType "returnVal" true isNewReturnVal]) ++
    f.getParams.reverse.map fun p => .pop p.type (paramName p) true true

def callStatement (f : Function) : Statement :=
  .call (if f.isVoidReturn then none else some "returnVal") false f
    (f.getParams.map fun p => ("", paramName p))

def pushResultStatements (f : Function) (returnType : CType) : List Statement :=
  (if f.isVoidReturn then [] else [.pushAlloc returnType "returnVal" true]) ++
    f.getParams.map fun p => .pushAlloc { p.type with isPtr := false } (paramName p) true

theorem map_popArgumentStatements (f : Function) (isNewReturnVal : Bool) :
    (popArgumentStatements f isNewReturnVal).map Statement.toInstruction =
      popArguments f isNewReturnVal := by
  unfold popArgumentStatements popArguments
  split <;> simp [Statement.toInstruction]

theorem toInstruction_callStatement (f : Function) :
    (callStatement f).toInstruction = callFunction f := by
  simp [callStatement, callFunction, Statement.toInstruction, Function.comp_def]

theorem map_pushResultStatements (f : Function) (returnType : CType) :
    (pushResultStatements f returnType).map Statement.toInstruction =
      pushResults f returnType := by
  unfold pushResultStatements pushResults
  split <;> simp [Statement.toInstruction]

/-- The statements of a handler, up to its last one. -/
def handlerStatements (f : Function) (isNewReturnVal : Bool) (returnType : CType)
    (last : Statement) : List Statement :=
  popArgumentStatements f isNewReturnVal ++ [callStatement f] ++
    pushResultStatements f returnType ++ [last]

theorem map_handlerStatements (f : Function) (isNewReturnVal : Bool) (returnType : CType)
    (last : Statement) :
    (handlerStatements f isNewReturnVal returnType last).map Statement.toInstruction =
      popArguments f isNewReturnVal ++ [callFunction f] ++ pushResults f returnType ++
        [last.toInstruction] := by
  simp only [handlerStatements, List.map_append, List.map_cons, List.map_nil,
    map_popArgumentStatements, toInstruction_callStatement, map_pushResultStatements]

def enclaveEcall (enclaveF : Function) : GeneratedFunction where
  function := generateEnclaveEcall enclaveF
  statements := handlerStatements enclaveF true enclaveF.getReturnType
    (.returnValue "PrimitiveStatus::OkStatus()")
  body_eq := by
    rw [map_handlerStatements]
    rfl

def oCall (appF : Function) : GeneratedFunction where
  function := generateOCall appF
  statements := handlerStatements appF false { appF.getReturnType with isPtr := false }
    (.other "PrimitiveStatus::OkStatus()" [])
  body_eq := by
    rw [map_handlerStatements]
    rfl

/-! ## Wrappers -/

/-- The statements of a wrapper around the call `call`. -/
def wrapperStatements (f : Function) (stackType : String) (call last : Statement) :
    List Statement :=
  [.declare stackType "params"] ++
    (wrapperParams f).map (fun p => .pushAlloc p.type p.name false) ++ [call] ++
    (wrapperParams f).map (fun p => .pop p.type p.name false false) ++ [last]

theorem map_wrapperStatements (f : Function) (stackType : String) (call last : Statement) :
    (wrapperStatements f stackType call last).map Statement.toInstruction =
      [.text (stackType ++ (" " ++ "params"))] ++
        (wrapperParams f).map (fun p => .pushAlloc p.type p.name false) ++ [call.toInstruction] ++
        (wrapperParams f).map (fun p => .pop p.type p.name false false) ++
        [last.toInstruction] := by
  simp only [wrapperStatements, List.map_append, List.map_map, List.map_cons, List.map_nil]
  rfl

def ecallWrapper (enclaveF : Function) : GeneratedFunction where
  function := generateEcallWrapper enclaveF
  statements := wrapperStatements enclaveF "UntrustedParameterStack"
    (.enclaveCall ("k" ++ enclaveF.getName ++ "EnclaveSelector"))
    (.returnValue "Status::OkStatus()")
  body_eq := by
    rw [map_wrapperStatements, Statement.toInstruction, enclaveCall_eq]
    rfl

def appFunctionWrapperInEnclave (appF : Function) : GeneratedFunction where
  function := generateAppFunctionWrapperInEnclave appF
  statements := wrapperStatements appF "TrustedParameterStack"
    (.untrustedCall ("k" ++ appF.getName ++ "OCallHandler"))
    (.returnValue "PrimitiveStatus::OkStatus()")
  body_eq := by
    rw [map_wrapperStatements, Statement.toInstruction, untrustedCall_eq]
    rfl

/-! ## Redirections -/

/-- The statements of a function that redirects its calls to a wrapper, up to its `return`. -/
def redirectStatements (wrapper f : Function) : List Statement :=
  (if f.isVoidReturn then [] else [.declare f.getReturnType.getAsString "returnVal"]) ++
    [.call none true wrapper
      (f.getParams.map (fun p => (if p.type.isPtr then "*" else "", p.name)) ++
        if f.isVoidReturn then [] else [("", "returnVal")])]

/-- The texts of the arguments of a redirected call. -/
theorem map_redirectArguments (f : Function) :
    ((f.getParams.map (fun p => (if p.type.isPtr then "*" else "", p.name)) ++
        if f.isVoidReturn then [] else [("", "returnVal")]).map fun a => a.1 ++ a.2) =
      (f.getParams.map fun p => if p.type.isPtr then "*" ++ p.name else p.name) ++
        if f.isVoidReturn then [] else ["returnVal"] := by
  have hparams : ∀ p : Variable, (if p.type.isPtr then "*" else "") ++ p.name =
      if p.type.isPtr then "*" ++ p.name else p.name := by
    intro p
    split <;> simp
  rw [List.map_append, List.map_map, Function.comp_def]
  simp only [hparams]
  split <;> simp

theorem map_redirectStatements (wrapper f : Function) :
    (redirectStatements wrapper f).map Statement.toInstruction =
      (if f.isVoidReturn then [] else [.text (f.getReturnType.getAsString ++ " returnVal")]) ++
        [.call none ("asylo::primitives::" ++ wrapper.getCallAsString
          ((f.getParams.map fun p => if p.type.isPtr then "*" ++ p.name else p.name) ++
            if f.isVoidReturn then [] else ["returnVal"]))] := by
  rw [redirectStatements, List.map_append, List.map_singleton, Statement.toInstruction,
    map_redirectArguments]
  split <;> simp [Statement.toInstruction]

def appFunctionInEnclave (appF : Signature) : GeneratedFunction where
  function := generateAppFunctionInEnclave (generateAppFunctionWrapperInEnclave appF.toFunction)
    appF.toFunction
  statements := redirectStatements (generateAppFunctionWrapperInEnclave appF.toFunction)
      appF.toFunction ++
    if appF.isVoidReturn then [] else [.returnVariable "returnVal"]
  body_eq := by
    rw [List.map_append, map_redirectStatements, generateAppFunctionInEnclave, appF.body_eq]
    split <;> simp [Statement.toInstruction]

def enclaveFunctionInDriver (enclaveF : Signature) : GeneratedFunction where
  function := generateEnclaveFunctionInDriver (generateEcallWrapper enclaveF.toFunction)
    enclaveF.toFunction
  statements := redirectStatements (generateEcallWrapper enclaveF.toFunction)
      enclaveF.toFunction ++ [.returnVariable "returnVal"]
  body_eq := by
    rw [List.map_append, map_redirectStatements, generateEnclaveFunctionInDriver, enclaveF.body_eq]
    split <;> simp [Statement.toInstruction]

end SGXCodeGenerator

end Vazgen
