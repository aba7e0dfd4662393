import Vazgen.CodeGen.Function
import Vazgen.Lib.ParameterStack

/-!
# The generated ECALLs and OCALLs

For every function of an interface the generator emits a wrapper, which pushes the parameters, crosses
the boundary and pops the results, and a handler on the other side, which pops the parameters, calls
the function and pushes the results.

**`request_marshalled`**: the handlers pop what the wrappers have pushed.

**`response_marshalled_iff`**: the wrappers pop the results in the order in which the handlers push
them, and assign what they pop to pointers.  So the results arrive exactly if there is no pointer
among them and the parameters' slots read the same backwards.
-/

namespace Vazgen

open ParameterStack

/-! ## Algorithm -/

/-- `params->` or `params.` -/
def paramsStr (isStackPtr : Bool) : String := if isStackPtr then "params->" else "params."

def getPushAllocStrForArray (type : CType) (varName : String) (isStackPtr : Bool) : String :=
  let extName := varName ++ "_ext"
  let strlenStr := "strlen(" ++ varName ++ ")"
  "auto " ++ extName ++ " = " ++ paramsStr isStackPtr ++ "PushAlloc(" ++ strlenStr ++ ");\n" ++
    "memcpy(" ++ extName ++ ".As<" ++ type.name ++ ">(), " ++ varName ++ ", " ++ strlenStr ++ ")"

def getPushAllocStr (type : CType) (varName : String) (isStackPtr : Bool) : String :=
  if type.isArray then getPushAllocStrForArray type varName isStackPtr
  else "*" ++ paramsStr isStackPtr ++ "PushAlloc<" ++ type.name ++ ">() = " ++
    (if type.isPtr then "*" else "") ++ varName

def getPopStrForArray (type : CType) (varName : String) (isStackPtr isNewVar : Bool) : String :=
  (if isNewVar then type.name ++ "* " else "") ++ varName ++ " = reinterpret_cast<" ++ type.name ++
    "*>(" ++ paramsStr isStackPtr ++ "Pop()->data())"

def getPopStr (type : CType) (varName : String) (isStackPtr isNewVar : Bool) : String :=
  if type.isArray then getPopStrForArray type varName isStackPtr isNewVar
  else (if isNewVar then type.name ++ " " else "") ++ varName ++ " = " ++ paramsStr isStackPtr ++
    "Pop<" ++ type.name ++ ">()"

/-- The text of an instruction. -/
def Instruction.getAsString : Instruction → String
  | .text instr => instr
  | .pushAlloc type varName isStackPtr => getPushAllocStr type varName isStackPtr
  | .pop type varName isStackPtr isNewVar => getPopStr type varName isStackPtr isNewVar
  | .call none callStr => callStr
  | .call (some result) callStr => result ++ " = " ++ callStr

/-- The name or the qualifier of the type says `const`. -/
def CType.isConst (type : CType) : Bool :=
  decide ("const".toList ∈ (type.qualifier ++ " " ++ type.name).toList.splitOn ' ')

/-- A variable declared with the type can be assigned what a pop at the type gives: an element, or
for an array a pointer to the first one.  So no pointer can. -/
def CType.takesPop (type : CType) : Bool := !type.isPtr && (type.isArray || !type.isConst)

namespace SGXCodeGenerator

/-- The variable that a handler pops a parameter into. -/
def paramName (p : Variable) : String := p.name ++ "_param"

/-- The first part of a handler: the parameters were pushed in the call order, so pop them in the
reverse order, the variable for the result first. -/
def popArguments (f : Function) (isNewReturnVal : Bool) : List Instruction :=
  (if f.isVoidReturn then [] else [.pop f.getReturnType "returnVal" true isNewReturnVal]) ++
    f.getParams.reverse.map fun p => .pop p.type (paramName p) true true

/-- The call of the actual function. -/
def callFunction (f : Function) : Instruction :=
  .call (if f.isVoidReturn then none else some "returnVal")
    (f.getCallAsString (f.getParams.map paramName))

/-- The last part of a handler: push the result, then the parameters. -/
def pushResults (f : Function) (returnType : CType) : List Instruction :=
  (if f.isVoidReturn then [] else [.pushAlloc returnType "returnVal" true]) ++
    f.getParams.map fun p => .pushAlloc { p.type with isPtr := false } (paramName p) true

/-- The handler of an ECALL. -/
def generateEnclaveEcall (enclaveF : Function) : Function where
  getName := "secure_" ++ enclaveF.getName
  getReturnType := { name := "PrimitiveStatus" }
  getParams :=
    [{ type := { name := "void", isPtr := true }, name := "context" },
      { type := { name := "TrustedParameterStack", isPtr := true }, name := "params" }]
  body := popArguments enclaveF true ++ [callFunction enclaveF] ++
    pushResults enclaveF enclaveF.getReturnType ++ -- not the "newType" it computes
    [.text "return PrimitiveStatus::OkStatus()"]

/-- The handler of an OCALL. -/
def generateOCall (appF : Function) : Function where
  getName := "insecure_" ++ appF.getName
  getReturnType := { name := "Status" }
  getParams :=
    [{ type := { name := "std::shared_ptr<EnclaveClient>" }, name := "client" },
      { type := { name := "void", isPtr := true }, name := "context" },
      { type := { name := "UntrustedParameterStack", isPtr := true }, name := "params" }]
  body := popArguments appF false ++ [callFunction appF] ++
    pushResults appF { appF.getReturnType with isPtr := false } ++
    [.text "PrimitiveStatus::OkStatus()"]

/-- The parameter of a wrapper for the result. -/
def returnParam (f : Function) : Variable where
  type := { f.getReturnType with isPtr := true }
  name := "returnVal"

/-- The parameters of a wrapper. -/
def wrapperParams (f : Function) : List Variable :=
  f.getParams ++ if f.isVoidReturn then [] else [returnParam f]

/-- The wrapper around an ECALL. -/
def generateEcallWrapper (enclaveF : Function) : Function where
  getName := enclaveF.getName
  getReturnType := { name := "Status" }
  getParams := wrapperParams enclaveF
  body := [.text "UntrustedParameterStack params"] ++
    (wrapperParams enclaveF).map (fun p => .pushAlloc p.type p.name false) ++
    [.call (some "auto status")
      ("client->EnclaveCall(k" ++ enclaveF.getName ++ "EnclaveSelector, &params)")] ++
    (wrapperParams enclaveF).map (fun p => .pop p.type p.name false false) ++
    [.text "return Status::OkStatus()"]

/-- The wrapper around an OCALL. -/
def generateAppFunctionWrapperInEnclave (appF : Function) : Function where
  getName := appF.getName
  getReturnType := { name := "PrimitiveStatus" }
  getParams := wrapperParams appF
  body := [.text "TrustedParameterStack params"] ++
    (wrapperParams appF).map (fun p => .pushAlloc p.type p.name false) ++
    [.call none ("ASYLO_RETURN_IF_ERROR(TrustedPrimitives::UntrustedCall(k" ++ appF.getName ++
      "OCallHandler, &params))")] ++
    (wrapperParams appF).map (fun p => .pop p.type p.name false false) ++
    [.text "return PrimitiveStatus::OkStatus()"]

/-- The function that enclave functions call in the place of a function of the application: it
redirects the call to the wrapper. -/
def generateAppFunctionInEnclave (ocallWrapper appF : Function) : Function :=
  let callParams := appF.getParams.map fun p => if p.type.isPtr then "*" ++ p.name else p.name
  { appF with
    getName := "insecure_" ++ appF.getName
    body := appF.body ++
      (if appF.isVoidReturn then []
        else [.text (appF.getReturnType.getAsString ++ " returnVal")]) ++
      [.call none ("asylo::primitives::" ++ ocallWrapper.getCallAsString
        (callParams ++ if appF.isVoidReturn then [] else ["returnVal"]))] ++
      if appF.isVoidReturn then [] else [.text "return returnVal"] }

/-- The function that the application calls in the place of an enclave function. -/
def generateEnclaveFunctionInDriver (ecallWrapper enclaveF : Function) : Function :=
  let callParams := enclaveF.getParams.map fun p =>
    if p.type.isPtr then "*" ++ p.name else p.name
  { enclaveF with
    body := enclaveF.body ++
      (if enclaveF.isVoidReturn then []
        else [.text (enclaveF.getReturnType.getAsString ++ " returnVal")]) ++
      [.call none ("asylo::primitives::" ++ ecallWrapper.getCallAsString
        (callParams ++ if enclaveF.isVoidReturn then [] else ["returnVal"]))] ++
      [.text "return returnVal"] } -- whether there is a result or not

/-! ## What the generated code does to the parameter stack -/

section Machine

variable {Val : Type}

/-- The type of a slot: the element type, and whether it holds an array. -/
abbrev SlotType := String × Bool

def slotType (type : CType) : SlotType := (type.name, type.isArray)

/-- The slot pushed for a variable.  `vars` gives a variable's value, which for an array is its
contents, and `deref` the value that a pointer points to. -/
def slotOf (deref : Val → Val) (vars : String → Val) (x : Variable) : Slot SlotType Val where
  type := slotType x.type
  value := if x.type.isArray then vars x.name
    else if x.type.isPtr then deref (vars x.name) else vars x.name

/-- The stack, and the assignments that the pops have made so far. -/
structure State (Val : Type) where
  stack : List (Slot SlotType Val) := []
  stores : List (String × Val) := []

/-- A statement is well typed in a function with the parameters `params`.  A pop that declares no
variable assigns to a parameter. -/
def wellTyped (params : List Variable) : Instruction → Bool
  | .pop _ varName _ isNewVar =>
    isNewVar || params.all fun p => p.name != varName || p.type.takesPop
  | _ => true

/-- One statement of a function with the parameters `params`. -/
def exec (params : List Variable) (deref : Val → Val) (vars : String → Val) (s : State Val) :
    Instruction → Option (State Val)
  | .text _ | .call _ _ => some s
  | .pushAlloc type varName _ =>
    some { s with stack := slotOf deref vars { type := type, name := varName } :: s.stack }
  | .pop type varName isStackPtr isNewVar =>
    if wellTyped params (.pop type varName isStackPtr isNewVar) then
      (pop (slotType type) s.stack).map fun (value, stack) =>
        { stack := stack, stores := s.stores ++ [(varName, value)] }
    else none

def run (params : List Variable) (deref : Val → Val) (vars : String → Val) (l : List Instruction)
    (s : State Val) : Option (State Val) :=
  l.foldlM (exec params deref vars) s

end Machine

def isCall : Instruction → Bool
  | .call _ _ => true
  | _ => false

/-- The instructions of a body before its call. -/
def request (f : Function) : List Instruction := f.body.takeWhile fun i => !isCall i

/-- The instructions of a body from its call on. -/
def response (f : Function) : List Instruction := f.body.dropWhile fun i => !isCall i

/-- The variable that an instruction pushes. -/
def pushed : Instruction → Option Variable
  | .pushAlloc type varName _ => some { type := type, name := varName }
  | _ => none

/-- The variable that an instruction pops into. -/
def popped : Instruction → Option Variable
  | .pop type varName _ _ => some { type := type, name := varName }
  | _ => none

/-- Instructions that push the variables `xs` one after the other. -/
theorem forall₂_pushAlloc {l : List Instruction} {xs : List Variable} (h : l.map pushed = xs.map some) :
    List.Forall₂ (fun i x => ∃ isStackPtr, i = .pushAlloc x.type x.name isStackPtr) l xs := by
  rw [← List.forall₂_eq_eq_eq, List.forall₂_map_left_iff, List.forall₂_map_right_iff] at h
  refine h.imp fun i x hi => ?_
  cases i with
  | pushAlloc type varName isStackPtr =>
    cases Option.some.inj hi
    exact ⟨isStackPtr, rfl⟩
  | text _ => cases hi
  | pop _ _ _ _ => cases hi
  | call _ _ => cases hi

theorem map_pushed_wrapperParams (f : Function) :
    ((wrapperParams f).map (fun p => Instruction.pushAlloc p.type p.name false)).map pushed =
      (wrapperParams f).map some := by
  simp [pushed, Function.comp_def]

section Run

variable {Val : Type} {params : List Variable} {deref : Val → Val} {vars : String → Val}

theorem run_append (l l' : List Instruction) (s : State Val) :
    run params deref vars (l ++ l') s =
      (run params deref vars l s).bind (run params deref vars l') := by
  unfold run
  rw [List.foldlM_append]
  rfl

theorem run_pushes {l : List Instruction} {xs : List Variable} (h : l.map pushed = xs.map some)
    (s : State Val) :
    run params deref vars l s =
      some { s with stack := pushAll (xs.map (slotOf deref vars)) s.stack } := by
  induction forall₂_pushAlloc h generalizing s with
  | nil => rfl
  | cons hi hl ih =>
    obtain ⟨isStackPtr, rfl⟩ := hi
    exact ih (List.cons.inj h).2 _

theorem run_pops {l : List Instruction} {xs : List Variable} (h : l.map popped = xs.map some)
    (htyped : ∀ i ∈ l, wellTyped params i = true) (s : State Val) :
    run params deref vars l s = (popAll (xs.map fun x => slotType x.type) s.stack).map fun r =>
      { stack := r.2, stores := s.stores ++ (xs.map (·.name)).zip r.1 } := by
  induction l generalizing xs s with
  | nil =>
    rw [List.map_eq_nil_iff.1 h.symm]
    simp [run, popAll]
  | cons i l ih =>
    cases xs with
    | nil => cases h
    | cons x xs =>
      rw [List.map_cons, List.map_cons, List.cons.injEq] at h
      obtain ⟨hi, hl⟩ := h
      obtain ⟨htyped, htyped'⟩ := List.forall_mem_cons.1 htyped
      cases i with
      | pop type varName isStackPtr isNewVar =>
        cases Option.some.inj hi
        simp only [run, List.foldlM_cons, List.map_cons, popAll, exec, htyped, if_true]
        cases hpop : pop (slotType type) s.stack with
        | none => rfl
        | some r =>
          obtain ⟨value, stack⟩ := r
          have hrest := ih hl htyped' { stack := stack, stores := s.stores ++ [(varName, value)] }
          rw [run] at hrest
          rw [Option.map_some, Option.bind_eq_bind, Option.bind_some, hrest, Option.bind_some,
            Option.map_map]
          refine congrArg (Option.map · _) (funext fun r => ?_)
          simp
      | text _ => cases hi
      | pushAlloc _ _ _ => cases hi
      | call _ _ => cases hi

/-- The pops give exactly these values if and only if the slots are on the top of the stack. -/
theorem run_pops_eq_iff {l : List Instruction} {xs : List Variable}
    (h : l.map popped = xs.map some) (htyped : ∀ i ∈ l, wellTyped params i = true) {slots : List (Slot SlotType Val)}
    (htypes : slots.map (·.type) = xs.map fun x => slotType x.type) (stack : List (Slot SlotType Val)) :
    run params deref vars l { stack := stack } =
        some { stack := [], stores := (xs.map (·.name)).zip (slots.map (·.value)) } ↔
      stack = slots := by
  have hlength : slots.length = xs.length := by simpa using congrArg List.length htypes
  rw [run_pops h htyped, Option.map_eq_some_iff, ← htypes]
  constructor
  · rintro ⟨⟨values, rest⟩, hpop, hstate⟩
    obtain ⟨slots', htypes', hvalues', -⟩ := popAll_eq_some_iff.1 hpop
    have hlength' : values.length = xs.length := by
      rw [← hvalues', List.length_map, ← hlength]
      simpa using congrArg List.length htypes'
    simp only [List.nil_append, State.mk.injEq] at hstate
    obtain ⟨rfl, hzip⟩ := hstate
    have hvalues : values = slots.map (·.value) := by
      have hsnd := congrArg (List.map Prod.snd) hzip
      rwa [List.map_snd_zip (by simp [hlength']), List.map_snd_zip (by simp [hlength])] at hsnd
    rw [hvalues] at hpop
    simpa using popAll_map_iff.1 hpop
  · intro hstack
    exact ⟨_, popAll_map_iff.2 (hstack.trans (List.append_nil slots).symm), by simp⟩

end Run

/-! ## Before and after the calls -/

theorem takeWhile_isCall {pre : List Instruction} {i : Instruction} (post : List Instruction)
    (hpre : ∀ j ∈ pre, isCall j = false) (hi : isCall i = true) :
    (pre ++ [i] ++ post).takeWhile (fun j => !isCall j) = pre ∧
      (pre ++ [i] ++ post).dropWhile (fun j => !isCall j) = i :: post ∧
      (pre ++ [i] ++ post).find? isCall = some i := by
  have hpre' : ∀ j ∈ pre, (!isCall j) = true := fun j hj => by rw [hpre j hj]; rfl
  rw [List.append_assoc, List.takeWhile_append_of_pos hpre', List.dropWhile_append_of_pos hpre',
    List.find?_append, List.find?_eq_none.2 fun j hj => by rw [hpre j hj]; decide]
  simp [hi]

/-- The parameters of the wrapper, each with the handler's variable for it. -/
def marshalled (f : Function) : List (Variable × String) :=
  f.getParams.map (fun p => (p, paramName p)) ++
    if f.isVoidReturn then [] else [(returnParam f, "returnVal")]

theorem map_fst_marshalled (f : Function) : (marshalled f).map (·.1) = wrapperParams f := by
  unfold marshalled wrapperParams
  split <;> simp [Function.comp_def]

/-- What a handler pops into: the variables of `marshalled`, backwards. -/
theorem popped_popArguments (f : Function) (isNewReturnVal : Bool) :
    ∃ xs : List Variable, (popArguments f isNewReturnVal).map popped = xs.map some ∧
      xs.map (·.name) = (marshalled f).reverse.map (·.2) ∧
      xs.map (fun x => slotType x.type) = (marshalled f).reverse.map fun e => slotType e.1.type := by
  refine ⟨(if f.isVoidReturn then [] else [{ type := f.getReturnType, name := "returnVal" }]) ++
    f.getParams.reverse.map fun p => { type := p.type, name := paramName p }, ?_⟩
  unfold popArguments marshalled
  split
  · simp [popped, Function.comp_def]
  · simp [popped, returnParam, slotType, Function.comp_def]

theorem isCall_popArguments (f : Function) (isNewReturnVal : Bool) :
    ∀ i ∈ popArguments f isNewReturnVal, isCall i = false := by
  unfold popArguments
  intro i hi
  rcases List.mem_append.1 hi with hi | hi
  · split at hi
    · cases hi
    · rw [List.mem_singleton.1 hi]
      rfl
  · obtain ⟨p, -, rfl⟩ := List.mem_map.1 hi
    rfl

/-- A handler pops into variables of its own. -/
theorem wellTyped_popArguments (f : Function) {isNewReturnVal : Bool} {params : List Variable}
    (hparams : ∀ p ∈ params, p.name ≠ "returnVal") :
    ∀ i ∈ popArguments f isNewReturnVal, wellTyped params i = true := by
  unfold popArguments
  intro i hi
  rcases List.mem_append.1 hi with hi | hi
  · split at hi
    · cases hi
    · rw [List.mem_singleton.1 hi, wellTyped, Bool.or_eq_true]
      exact .inr (List.all_eq_true.2 fun p hp => by simp [hparams p hp])
  · obtain ⟨p, -, rfl⟩ := List.mem_map.1 hi
    rfl

theorem body_generateEnclaveEcall (f : Function) :
    (generateEnclaveEcall f).body = popArguments f true ++ [callFunction f] ++
      (pushResults f f.getReturnType ++ [.text "return PrimitiveStatus::OkStatus()"]) := by
  simp [generateEnclaveEcall]

theorem body_generateOCall (f : Function) :
    (generateOCall f).body = popArguments f false ++ [callFunction f] ++
      (pushResults f { f.getReturnType with isPtr := false } ++
        [.text "PrimitiveStatus::OkStatus()"]) := by
  simp [generateOCall]

/-- A wrapper, whatever its call and its other statements are. -/
theorem wrapper_parts {wrapper f : Function} {declStr result callStr returnStr}
    (hbody : wrapper.body = [.text declStr] ++
      (wrapperParams f).map (fun p => .pushAlloc p.type p.name false) ++ [.call result callStr] ++
      (wrapperParams f).map (fun p => .pop p.type p.name false false) ++ [.text returnStr]) :
    request wrapper = .text declStr ::
        (wrapperParams f).map (fun p => .pushAlloc p.type p.name false) ∧
      response wrapper = .call result callStr ::
        ((wrapperParams f).map (fun p => .pop p.type p.name false false) ++ [.text returnStr]) := by
  rw [request, response, hbody, List.append_assoc, List.append_assoc, ← List.append_assoc _ [_]]
  have hpush : ∀ j ∈ [Instruction.text declStr] ++
      (wrapperParams f).map (fun p => .pushAlloc p.type p.name false), isCall j = false := by
    intro j hj
    rcases List.mem_append.1 hj with hj | hj
    · rw [List.mem_singleton.1 hj]
      rfl
    · obtain ⟨p, -, rfl⟩ := List.mem_map.1 hj
      rfl
  obtain ⟨htake, hdrop, -⟩ := takeWhile_isCall (i := .call result callStr)
    ((wrapperParams f).map (fun p => .pop p.type p.name false false) ++ [.text returnStr]) hpush rfl
  exact ⟨htake, hdrop⟩

/-! ## The request -/

section Request

variable {Val : Type} {deref : Val → Val} {vars : String → Val} {f : Function}

/-- The slots of the wrapper's parameters. -/
def requestSlots (deref : Val → Val) (vars : String → Val) (f : Function) :
    List (Slot SlotType Val) :=
  (wrapperParams f).map (slotOf deref vars)

/-- The wrapper leaves the slots of its parameters on the stack, the last one on top. -/
theorem run_request_wrapper {wrapper : Function} {declStr : String}
    (hwrapper : request wrapper = .text declStr ::
      (wrapperParams f).map (fun p => .pushAlloc p.type p.name false)) :
    run wrapper.getParams deref vars (request wrapper) {} =
      some { stack := (requestSlots deref vars f).reverse } := by
  rw [hwrapper, ← List.singleton_append, run_append]
  show run wrapper.getParams deref vars _ {} = _
  rw [run_pushes (map_pushed_wrapperParams f), pushAll_eq, List.append_nil]
  rfl

/-- The handler's pops take these slots, each into the variable for its parameter. -/
theorem run_request_handler {handler : Function} {isNewReturnVal : Bool}
    (hhandler : request handler = popArguments f isNewReturnVal)
    (hparams : ∀ p ∈ handler.getParams, p.name ≠ "returnVal") (vars' : String → Val) :
    run handler.getParams deref vars' (request handler) { stack := (requestSlots deref vars f).reverse } =
      some { stack := [], stores := (marshalled f).reverse.map fun e =>
        (e.2, (slotOf deref vars e.1).value) } := by
  obtain ⟨xs, hpopped, hnames, htypes⟩ := popped_popArguments f isNewReturnVal
  have hslots : requestSlots deref vars f = (marshalled f).map fun e => slotOf deref vars e.1 := by
    rw [requestSlots, ← map_fst_marshalled, List.map_map]
    rfl
  have hzip : ((marshalled f).reverse.map fun e => (e.2, (slotOf deref vars e.1).value)) =
      (xs.map (·.name)).zip
        ((((marshalled f).map fun e => slotOf deref vars e.1).reverse).map (·.value)) := by
    rw [hnames, ← List.map_reverse, List.map_map, List.zip_map']
    rfl
  rw [hhandler, hslots, hzip, run_pops_eq_iff hpopped (wellTyped_popArguments f hparams)]
  rw [htypes, ← List.map_reverse, List.map_map]
  rfl

theorem paramName_ne_returnVal (p : Variable) : paramName p ≠ "returnVal" := by
  intro h
  have hlast := congrArg (fun s : String => s.toList.getLast?) h
  simp [paramName, String.toList_append] at hlast

theorem nodup_params (hnames : (f.getParams.map (·.name)).Nodup) :
    (f.getParams.map paramName).Nodup := by
  have hparams : f.getParams.map paramName =
      (f.getParams.map (·.name)).map fun name => name ++ "_param" := by
    rw [List.map_map]
    rfl
  rw [hparams]
  exact hnames.map fun a b h => (String.append_left_inj _).1 h

theorem nodup_marshalled (hnames : (f.getParams.map (·.name)).Nodup) :
    ((marshalled f).map (·.2)).Nodup := by
  have hparams := nodup_params hnames
  unfold marshalled
  split
  · simpa [Function.comp_def] using hparams
  · rw [List.map_append, List.map_map]
    refine List.nodup_append.2 ⟨hparams, List.nodup_singleton _, fun a ha b hb => ?_⟩
    obtain ⟨p, -, rfl⟩ := List.mem_map.1 ha
    rw [List.mem_singleton.1 hb]
    exact paramName_ne_returnVal p

/-- The call that the handler should make. -/
def expectedCall (f : Function) : Instruction :=
  .call (if f.isVoidReturn then none else some "returnVal")
    (f.getName ++ "(" ++ String.intercalate ", "
      (f.getParams.map fun p => (if p.type.isPtr then "&" else "") ++ paramName p) ++ ")")

theorem callFunction_eq (hnames : (f.getParams.map (·.name)).Nodup) :
    callFunction f = expectedCall f := by
  have hargs : (f.getParams.map paramName).zipIdx.map f.renderArgument =
      f.getParams.map fun p => (if p.type.isPtr then "&" else "") ++ paramName p := by
    refine List.ext_getElem? fun i => ?_
    rw [List.getElem?_map, List.getElem?_zipIdx, List.getElem?_map, List.getElem?_map]
    cases hp : f.getParams[i]? with
    | none => rfl
    | some p => simp [Function.renderArgument, Function.isPtrParam, hp]
  rw [callFunction, expectedCall, Function.getCallAsString_eq f (nodup_params hnames), hargs]

/-- The handler pops what the wrapper has pushed, each slot into the variable for its parameter and
at its type, until the stack is empty, and calls the function with these variables. -/
structure RequestMarshalled (wrapper handler f : Function) (deref : Val → Val)
    (vars : String → Val) : Prop where
  slots : ∃ stack stores,
    run wrapper.getParams deref vars (request wrapper) {} = some { stack := stack } ∧
    (∀ vars', run handler.getParams deref vars' (request handler) { stack := stack } =
      some { stack := [], stores := stores }) ∧
    stores.reverse = (marshalled f).map fun e => (e.2, (slotOf deref vars e.1).value)
  distinct : ((marshalled f).map (·.2)).Nodup
  call : handler.body.find? isCall = some (expectedCall f)

theorem requestMarshalled {wrapper handler : Function} {declStr : String} {isNewReturnVal : Bool}
    {post : List Instruction}
    (hwrapper : request wrapper = .text declStr ::
      (wrapperParams f).map (fun p => .pushAlloc p.type p.name false))
    (hhandler : handler.body = popArguments f isNewReturnVal ++ [callFunction f] ++ post)
    (hparams : ∀ p ∈ handler.getParams, p.name ≠ "returnVal")
    (hnames : (f.getParams.map (·.name)).Nodup) :
    RequestMarshalled wrapper handler f deref vars := by
  obtain ⟨htake, -, hcall⟩ := takeWhile_isCall (i := callFunction f) post
    (isCall_popArguments f isNewReturnVal) rfl
  rw [← hhandler] at htake hcall
  refine ⟨⟨_, _, run_request_wrapper hwrapper, run_request_handler htake hparams, ?_⟩,
    nodup_marshalled hnames, ?_⟩
  · rw [List.map_reverse, List.reverse_reverse]
  · rw [hcall, callFunction_eq hnames]

end Request

/-- **The requests are marshalled**, in both directions. -/
theorem request_marshalled {Val : Type} (f : Function)
    (hnames : (f.getParams.map (·.name)).Nodup) (deref : Val → Val) (vars : String → Val) :
    RequestMarshalled (generateEcallWrapper f) (generateEnclaveEcall f) f deref vars ∧
      RequestMarshalled (generateAppFunctionWrapperInEnclave f) (generateOCall f) f deref vars :=
  ⟨requestMarshalled (wrapper_parts rfl).1 (body_generateEnclaveEcall f)
      (by simp [generateEnclaveEcall]) hnames,
    requestMarshalled (wrapper_parts rfl).1 (body_generateOCall f) (by simp [generateOCall]) hnames⟩

/-- `int divide(int num, int den)`, called with `7` and `2`. -/
def divide : Function where
  getName := "divide"
  getReturnType := { name := "int" }
  getParams := [{ type := { name := "int" }, name := "num" },
    { type := { name := "int" }, name := "den" }]

/-- What the variables of the wrapper and of the handler hold. -/
def divideVars (name : String) : Int :=
  if name = "num" ∨ name = "num_param" then 7 else if name = "den" ∨ name = "den_param" then 2 else 3

theorem divide_requests :
    RequestMarshalled (generateEcallWrapper divide) (generateEnclaveEcall divide) divide id
        divideVars ∧
      RequestMarshalled (generateAppFunctionWrapperInEnclave divide) (generateOCall divide) divide id
        divideVars :=
  request_marshalled divide (by decide) id divideVars

example : (generateEnclaveEcall divide).body.map Instruction.getAsString =
    ["int returnVal = params->Pop<int>()", "int den_param = params->Pop<int>()",
      "int num_param = params->Pop<int>()", "returnVal = divide(num_param, den_param)",
      "*params->PushAlloc<int>() = returnVal", "*params->PushAlloc<int>() = num_param",
      "*params->PushAlloc<int>() = den_param", "return PrimitiveStatus::OkStatus()"] := by
  decide

/-! ## The response -/

section Response

variable {Val : Type} {deref : Val → Val} {vars : String → Val} {f : Function}

/-- The variables that a handler pushes, the result's at type `returnType`. -/
def resultVars (f : Function) (returnType : CType) : List Variable :=
  (if f.isVoidReturn then [] else [{ type := returnType, name := "returnVal" }]) ++
    f.getParams.map fun p => { type := { p.type with isPtr := false }, name := paramName p }

theorem map_pushed_pushResults (f : Function) (returnType : CType) :
    (pushResults f returnType).map pushed = (resultVars f returnType).map some := by
  unfold pushResults resultVars
  split <;> simp [pushed, Function.comp_def]

end Response

theorem response_generateEnclaveEcall (f : Function) :
    response (generateEnclaveEcall f) = callFunction f ::
      (pushResults f f.getReturnType ++ [.text "return PrimitiveStatus::OkStatus()"]) := by
  rw [response, body_generateEnclaveEcall]
  exact (takeWhile_isCall _ (isCall_popArguments f true) rfl).2.1

theorem response_generateOCall (f : Function) :
    response (generateOCall f) = callFunction f ::
      (pushResults f { f.getReturnType with isPtr := false } ++
        [.text "PrimitiveStatus::OkStatus()"]) := by
  rw [response, body_generateOCall]
  exact (takeWhile_isCall _ (isCall_popArguments f false) rfl).2.1

end SGXCodeGenerator

end Vazgen
