import Vazgen.CodeGen.LocalVariables

/-!
# The two call directions

ECALLs and OCALLs are generated by two copies of the same code.  The wrappers agree up to names.  The
handlers do not: that of an OCALL lacks its last `return` and the declaration of `returnVal`, and that
of an ECALL dereferences a `returnVal` of pointer type, which it has popped as a value
(`handlers_agree_iff`).
-/

namespace Vazgen

namespace Statement

/-- The slot that a statement pops, the variable that it goes to, and whether this declares it. -/
def popped : Statement → Option (SGXCodeGenerator.SlotType × String × Bool)
  | pop type varName _ isNewVar => some (SGXCodeGenerator.slotType type, varName, isNewVar)
  | _ => none

/-- A call and its result.  The calls across the boundary are all one, whatever is done with their
status. -/
inductive Call where
  | function (result : Option String) (callStr : String)
  | transfer
deriving DecidableEq

def called : Statement → Option Call
  | call result isQualified callee arguments =>
    some (.function result ((if isQualified then "asylo::primitives::" else "") ++
      callee.getCallAsString (arguments.map fun a => a.1 ++ a.2)))
  | enclaveCall _ | untrustedCall _ => some .transfer
  | _ => none

/-- The slot that a statement pushes, and the expression that it does. -/
def pushed : Statement → Option (SGXCodeGenerator.SlotType × String)
  | pushAlloc type varName _ =>
    some (SGXCodeGenerator.slotType type,
      (if type.isPtr && !type.isArray then "*" else "") ++ varName)
  | _ => none

end Statement

namespace GeneratedFunction

variable (g : GeneratedFunction)

def pops : List (SGXCodeGenerator.SlotType × String × Bool) :=
  g.statements.filterMap Statement.popped

def calls : List Statement.Call := g.statements.filterMap Statement.called

def pushes : List (SGXCodeGenerator.SlotType × String) := g.statements.filterMap Statement.pushed

/-- Two bodies do the same, up to the names of the stack type and of the call across the boundary. -/
structure Agree (g g' : GeneratedFunction) : Prop where
  pops : g.pops = g'.pops
  calls : g.calls = g'.calls
  pushes : g.pushes = g'.pushes
  ends : g.endsWithReturn = g'.endsWithReturn

end GeneratedFunction

namespace SGXCodeGenerator

/-- The two directions implement one protocol. -/
structure SameProtocol (f : Function) : Prop where
  handlers : (enclaveEcall f).Agree (oCall f)
  wrappers : (ecallWrapper f).Agree (appFunctionWrapperInEnclave f)

/-! ## Handlers -/

theorem filterMap_handlerStatements {α : Type} (g : Statement → Option α) {last : Statement}
    (hlast : g last = none) (f : Function) (isNewReturnVal : Bool) (returnType : CType) :
    (handlerStatements f isNewReturnVal returnType last).filterMap g =
      (if f.isVoidReturn then []
        else (g (.pop f.getReturnType "returnVal" true isNewReturnVal)).toList) ++
      f.getParams.reverse.filterMap (fun p => g (.pop p.type (paramName p) true true)) ++
      (g (callStatement f)).toList ++
      (if f.isVoidReturn then [] else (g (.pushAlloc returnType "returnVal" true)).toList) ++
      f.getParams.filterMap
        fun p => g (.pushAlloc { p.type with isPtr := false } (paramName p) true) := by
  have hcons : ∀ (i : Statement) (l : List Statement),
      (i :: l).filterMap g = (g i).toList ++ l.filterMap g := by
    intro i l
    rw [List.filterMap_cons]
    cases g i <;> rfl
  unfold handlerStatements popArgumentStatements pushResultStatements
  simp only [List.filterMap_append, hcons, List.filterMap_nil, List.filterMap_map, hlast,
    List.append_nil, Option.toList_none, List.append_assoc]
  split
  · rfl
  · simp only [hcons, List.filterMap_nil, List.append_nil, Function.comp_def]

theorem pops_handlerStatements (g : GeneratedFunction) (f : Function) (isNewReturnVal : Bool)
    (returnType : CType) {last : Statement} (hlast : last.popped = none)
    (hg : g.statements = handlerStatements f isNewReturnVal returnType last) :
    g.pops =
      (if f.isVoidReturn then [] else [(slotType f.getReturnType, "returnVal", isNewReturnVal)]) ++
        f.getParams.reverse.map fun p => (slotType p.type, paramName p, true) := by
  rw [GeneratedFunction.pops, hg, filterMap_handlerStatements _ hlast]
  simp [Statement.popped, callStatement]

theorem calls_handlerStatements (g : GeneratedFunction) (f : Function) (isNewReturnVal : Bool)
    (returnType : CType) {last : Statement} (hlast : last.called = none)
    (hg : g.statements = handlerStatements f isNewReturnVal returnType last) :
    g.calls = (callStatement f).called.toList := by
  rw [GeneratedFunction.calls, hg, filterMap_handlerStatements _ hlast]
  simp [Statement.called]

theorem pushes_handlerStatements (g : GeneratedFunction) (f : Function) (isNewReturnVal : Bool)
    (returnType : CType) {last : Statement} (hlast : last.pushed = none)
    (hg : g.statements = handlerStatements f isNewReturnVal returnType last) :
    g.pushes =
      (if f.isVoidReturn then [] else [(slotType returnType,
          (if returnType.isPtr && !returnType.isArray then "*" else "") ++ "returnVal")]) ++
        f.getParams.map fun p => (slotType p.type, paramName p) := by
  rw [GeneratedFunction.pushes, hg, filterMap_handlerStatements _ hlast]
  simp [Statement.pushed, callStatement, slotType]

/-- **In what the handlers agree.** -/
theorem handlers_agree_iff (f : Function) :
    ((enclaveEcall f).pops = (oCall f).pops ↔ f.isVoidReturn = true) ∧
      (enclaveEcall f).calls = (oCall f).calls ∧
      ((enclaveEcall f).pushes = (oCall f).pushes ↔ (f.isVoidReturn = false →
        f.getReturnType.isPtr = true → f.getReturnType.isArray = true)) ∧
      (enclaveEcall f).endsWithReturn = true ∧ (oCall f).endsWithReturn = false := by
  refine ⟨?_, ?_, ?_, GeneratedFunction.endsWithReturn_eq _ _ rfl rfl,
    GeneratedFunction.endsWithReturn_eq _ _ rfl rfl⟩
  · rw [pops_handlerStatements (enclaveEcall f) f _ _ rfl rfl,
      pops_handlerStatements (oCall f) f _ _ rfl rfl, List.append_left_inj]
    cases f.isVoidReturn with
    | true => simp
    | false => simp
  · rw [calls_handlerStatements (enclaveEcall f) f _ _ rfl rfl,
      calls_handlerStatements (oCall f) f _ _ rfl rfl]
  · rw [pushes_handlerStatements (enclaveEcall f) f _ _ rfl rfl,
      pushes_handlerStatements (oCall f) f _ _ rfl rfl, List.append_left_inj]
    cases f.isVoidReturn with
    | true => simp
    | false =>
      cases f.getReturnType.isPtr with
      | false => simp [slotType]
      | true =>
        cases f.getReturnType.isArray with
        | true => simp [slotType]
        | false => simp [slotType]

/-! ## Wrappers -/

theorem filterMap_wrapperStatements {α : Type} (g : Statement → Option α) (f : Function)
    {stackType : String} {call last : Statement} (hdeclare : g (.declare stackType "params") = none)
    (hlast : g last = none) :
    (wrapperStatements f stackType call last).filterMap g =
      (wrapperParams f).filterMap (fun p => g (.pushAlloc p.type p.name false)) ++
        (g call).toList ++ (wrapperParams f).filterMap fun p => g (.pop p.type p.name false false) := by
  unfold wrapperStatements
  simp only [List.filterMap_append, List.filterMap_map, List.filterMap_cons, List.filterMap_nil,
    hdeclare, hlast, List.nil_append, List.append_nil]
  cases g call <;> rfl

/-- **The wrappers agree.** -/
theorem wrappers_agree (f : Function) :
    (ecallWrapper f).Agree (appFunctionWrapperInEnclave f) where
  pops := by
    unfold GeneratedFunction.pops ecallWrapper appFunctionWrapperInEnclave
    rw [filterMap_wrapperStatements _ f rfl rfl, filterMap_wrapperStatements _ f rfl rfl]
    rfl
  calls := by
    unfold GeneratedFunction.calls ecallWrapper appFunctionWrapperInEnclave
    rw [filterMap_wrapperStatements _ f rfl rfl, filterMap_wrapperStatements _ f rfl rfl]
    rfl
  pushes := by
    unfold GeneratedFunction.pushes ecallWrapper appFunctionWrapperInEnclave
    rw [filterMap_wrapperStatements _ f rfl rfl, filterMap_wrapperStatements _ f rfl rfl]
    rfl
  ends := by
    rw [GeneratedFunction.endsWithReturn_eq (g := ecallWrapper f) _ _ rfl rfl,
      GeneratedFunction.endsWithReturn_eq (g := appFunctionWrapperInEnclave f) _ _ rfl rfl]
    rfl

/-- **The directions never implement one protocol.** -/
theorem not_sameProtocol (f : Function) : ¬ SameProtocol f := by
  intro h
  obtain ⟨-, -, -, hreturn, hvalue⟩ := handlers_agree_iff f
  have hends := h.handlers.ends
  rw [hreturn, hvalue] at hends
  cases hends

/-- `screen_t *new_screen()` -/
def newScreen : Function where
  getName := "new_screen"
  getReturnType := { name := "screen_t", isPtr := true }

theorem newScreen_not_sameProtocol : ¬ SameProtocol newScreen := by
  intro h
  -- `*returnVal` against `returnVal`
  have hpushes := (handlers_agree_iff newScreen).2.2.1.1 h.handlers.pushes rfl rfl
  cases hpushes

example : (enclaveEcall newScreen).pushes = [(("screen_t", false), "*returnVal")] ∧
    (oCall newScreen).pushes = [(("screen_t", false), "returnVal")] := by
  decide

end SGXCodeGenerator

end Vazgen
