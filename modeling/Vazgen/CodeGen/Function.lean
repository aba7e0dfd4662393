import Mathlib.Data.List.Nodup

/-!
# Functions of the generated source files

`getCallAsString` puts a comma after every argument that differs from the last one.  That separates
them as it should exactly if no other argument equals the last one (`getCallAsString_eq_iff`), as on
distinct arguments (`getCallAsString_eq`).
-/

namespace Vazgen

/-- `Type`: the name of the base or element type, and what is on top of it. -/
structure CType where
  name : String
  qualifier : String := ""
  isPtr : Bool := false
  isArray : Bool := false
deriving DecidableEq

/-- `Type::getAsString` -/
def CType.getAsString (type : CType) : String :=
  (if type.qualifier.isEmpty then "" else type.qualifier ++ " ") ++ type.name ++
    (if type.isPtr then "*" else "") ++ (if type.isArray then "[]" else "")

structure Variable where
  type : CType
  name : String
deriving DecidableEq

/-- An instruction of a generated body. -/
inductive Instruction where
  | text (instr : String)
  | pushAlloc (type : CType) (varName : String) (isStackPtr : Bool)
  | pop (type : CType) (varName : String) (isStackPtr isNewVar : Bool)
  /-- a call, and the variable that its result is assigned to -/
  | call (result : Option String) (callStr : String)
deriving DecidableEq

/-- `Function` -/
structure Function where
  getName : String
  getReturnType : CType := { name := "void" }
  getParams : List Variable := []
  body : List Instruction := []

namespace Function

def isVoidReturn (f : Function) : Bool := f.getReturnType.name == "void"

/-- The parameter that an argument is passed for has pointer type. -/
def isPtrParam (f : Function) (i : Nat) : Bool := (f.getParams[i]?).any (·.type.isPtr)

/-- One iteration of the loop of `getCallAsString`, on an argument and its index. -/
def callArgument (f : Function) (arguments : List String) (callStr : String) (arg : String × Nat) :
    String :=
  let callStr := if f.isPtrParam arg.2 then callStr ++ "&" else callStr
  let callStr := callStr ++ arg.1
  if some arg.1 ≠ arguments.getLast? then callStr ++ ", " else callStr

/-- `getCallAsString`; the callers pass one argument for each parameter. -/
def getCallAsString (f : Function) (arguments : List String) : String :=
  arguments.zipIdx.foldl (f.callArgument arguments) (f.getName ++ "(") ++ ")"

/-! ## The text of a call -/

/-- An argument as it should be passed: for a pointer parameter by address. -/
def renderArgument (f : Function) (arg : String × Nat) : String :=
  (if f.isPtrParam arg.2 then "&" else "") ++ arg.1

theorem callArgument_eq (f : Function) (arguments : List String) (callStr : String)
    (arg : String × Nat) : f.callArgument arguments callStr arg =
      callStr ++ f.renderArgument arg ++ (if some arg.1 ≠ arguments.getLast? then ", " else "") := by
  unfold callArgument renderArgument
  dsimp only
  split <;> split <;> simp [String.append_assoc]

/-- The loop, from the `k`-th argument on. -/
theorem foldl_callArgument (f : Function) {arguments args : List String} (k : Nat)
    (callStr : String) (hne : args ≠ []) (hlast : args.getLast? = arguments.getLast?)
    (hsep : ∀ arg ∈ args.dropLast, some arg ≠ arguments.getLast?) :
    (args.zipIdx k).foldl (f.callArgument arguments) callStr =
      callStr ++ String.intercalate ", " ((args.zipIdx k).map f.renderArgument) := by
  induction args generalizing k callStr with
  | nil => exact absurd rfl hne
  | cons arg args ih =>
    rw [List.zipIdx_cons, List.foldl_cons, List.map_cons, callArgument_eq]
    cases args with
    | nil =>
      rw [← hlast]
      simp
    | cons arg' args =>
      rw [List.dropLast_cons_cons] at hsep
      have hlast' : (arg' :: args).getLast? = arguments.getLast? := by
        rw [← hlast, List.getLast?_cons_cons]
      rw [if_pos (hsep arg List.mem_cons_self), ih _ _ (List.cons_ne_nil _ _) hlast'
        fun a ha => hsep a (List.mem_cons_of_mem arg ha), List.zipIdx_cons, List.map_cons,
        String.intercalate_cons_cons]
      simp only [String.append_assoc]

/-- The loop leaves out a separator, of two characters, behind every earlier argument that equals the
last one. -/
theorem length_foldl_callArgument (f : Function) {arguments args : List String} (k : Nat)
    (callStr : String) (hne : args ≠ []) (hlast : args.getLast? = arguments.getLast?) :
    ((args.zipIdx k).foldl (f.callArgument arguments) callStr).length +
        2 * args.dropLast.countP (fun arg => some arg = arguments.getLast?) =
      (callStr ++ String.intercalate ", " ((args.zipIdx k).map f.renderArgument)).length := by
  induction args generalizing k callStr with
  | nil => exact absurd rfl hne
  | cons arg args ih =>
    rw [List.zipIdx_cons, List.foldl_cons, List.map_cons, callArgument_eq]
    cases args with
    | nil =>
      rw [← hlast]
      simp
    | cons arg' args =>
      have hlast' : (arg' :: args).getLast? = arguments.getLast? := by
        rw [← hlast, List.getLast?_cons_cons]
      have htail := ih (k + 1) (callStr ++ f.renderArgument (arg, k) ++
        if some arg ≠ arguments.getLast? then ", " else "") (List.cons_ne_nil _ _) hlast'
      have hcomma : (", " : String).length = 2 := by decide
      have hempty : ("" : String).length = 0 := by decide
      rw [List.dropLast_cons_cons, List.countP_cons, List.zipIdx_cons, List.map_cons,
        String.intercalate_cons_cons]
      rw [List.zipIdx_cons, List.map_cons] at htail
      simp only [String.length_append] at htail ⊢
      by_cases hsep : some arg = arguments.getLast?
      · simp only [hsep, ne_eq, not_true, if_false, if_true, decide_true, hempty, hcomma]
          at htail ⊢
        omega
      · simp only [hsep, ne_eq, not_false_iff, if_false, if_true, decide_false, hcomma,
          Bool.false_eq_true] at htail ⊢
        omega

/-- If no earlier argument equals the last one, the call lists them in their order, separated by
commas. -/
theorem getCallAsString_eq_of_ne (f : Function) {arguments : List String}
    (hsep : ∀ arg ∈ arguments.dropLast, some arg ≠ arguments.getLast?) :
    f.getCallAsString arguments = f.getName ++ "(" ++
      String.intercalate ", " (arguments.zipIdx.map f.renderArgument) ++ ")" := by
  unfold getCallAsString
  cases arguments with
  | nil => simp
  | cons arg args => rw [foldl_callArgument f 0 _ (List.cons_ne_nil _ _) rfl hsep]

theorem getCallAsString_eq (f : Function) {arguments : List String} (hnodup : arguments.Nodup) :
    f.getCallAsString arguments = f.getName ++ "(" ++
      String.intercalate ", " (arguments.zipIdx.map f.renderArgument) ++ ")" := by
  refine getCallAsString_eq_of_ne f fun arg harg hlast => ?_
  rw [← List.dropLast_append_getLast? arg hlast.symm] at hnodup
  exact List.disjoint_of_nodup_append hnodup harg (List.mem_singleton_self arg)

/-- **When a call is rendered as it should.**  No argument before the last one may equal it. -/
theorem getCallAsString_eq_iff (f : Function) (arguments : List String) :
    f.getCallAsString arguments = f.getName ++ "(" ++
        String.intercalate ", " (arguments.zipIdx.map f.renderArgument) ++ ")" ↔
      ∀ arg ∈ arguments.dropLast, some arg ≠ arguments.getLast? := by
  refine ⟨fun h arg harg hlast => ?_, getCallAsString_eq_of_ne f⟩
  unfold getCallAsString at h
  rw [String.append_left_inj] at h
  have hne : arguments ≠ [] := List.ne_nil_of_mem ((List.dropLast_subset arguments) harg)
  have hlength := length_foldl_callArgument f 0 (f.getName ++ "(") hne
    (rfl : arguments.getLast? = _)
  rw [h, Nat.add_eq_left, Nat.mul_eq_zero] at hlength
  have hnone := List.countP_eq_zero.1 (hlength.resolve_left (by decide)) arg harg
  exact hnone (decide_eq_true hlast)

/-- `void draw_line(int, int)` -/
def unnamedDrawLine : Function where
  getName := "draw_line"
  getParams := [{ type := { name := "int" }, name := "" }, { type := { name := "int" }, name := "" }]

/-- The call that the handler of `draw_line` makes. -/
theorem unnamedDrawLine_not_separated :
    unnamedDrawLine.getCallAsString ["_param", "_param"] = "draw_line(_param_param)" ∧
      unnamedDrawLine.getCallAsString ["_param", "_param"] ≠ unnamedDrawLine.getName ++ "(" ++
        String.intercalate ", "
          (["_param", "_param"].zipIdx.map unnamedDrawLine.renderArgument) ++ ")" := by
  decide

end Function

end Vazgen
