import Mathlib.Data.List.Count
import Vazgen.CodeGen.Function

/-!
# The types of the code generator

`getTypeFromClangType` walks over the pointers and arrays of a type and keeps of them whether there
was a pointer and whether there was an array (`getTypeFromClangType_shape`).
-/

namespace Vazgen

/-! ## The types of clang -/

/-- What `getTypeFromClangType` tells apart in a `clang::Type`.  A type of another class is given by
the name that `getTypeName` has for it; the parenthesised array of a pointer to an array is one. -/
inductive ClangType where
  | named (typeName : String)
  | pointer (pointee : ClangType)
  | array (element : ClangType)
  /-- the type of an array parameter, with the array as it was written -/
  | decayed (original : ClangType)
deriving DecidableEq

namespace ClangType

/-- `isVoidType`; `getTypeName` sees through the other names of `void`. -/
def isVoidType : ClangType → Bool
  | named typeName => typeName == "void"
  | _ => false

inductive Level where
  | pointer
  | array
deriving DecidableEq

/-- The pointers and arrays that a type is built with, the outermost first. -/
def levels : ClangType → List Level
  | named _ => []
  | pointer pointee => .pointer :: pointee.levels
  | array element => .array :: element.levels
  | decayed original => original.levels

def base : ClangType → String
  | named typeName => typeName
  | pointer pointee => pointee.base
  | array element => element.base
  | decayed original => original.base

/-- The type with some levels over a base, written in C around a declarator.  The declarator of a
pointer to an array stands in parentheses. -/
def spell (base : String) : List Level → String → String
  | [], declarator => base ++ declarator
  | .pointer :: .array :: levels, declarator =>
    spell base levels ("(*" ++ declarator ++ ")[]")
  | .pointer :: levels, declarator => spell base levels ("*" ++ declarator)
  | .array :: levels, declarator => spell base levels (declarator ++ "[]")

def spelled (t : ClangType) : String := spell t.base t.levels ""

end ClangType

/-- The parts of a `clang::FunctionDecl` that `getFunctionFromClangDecl` reads. -/
structure ClangDecl where
  getName : String
  params : List (String × ClangType)
  getReturnType : ClangType

namespace FunctionFinder

def getTypeFromClangType : ClangType → CType
  | .decayed original => getTypeFromClangType original
  | .pointer pointee => { getTypeFromClangType pointee with isPtr := true }
  | .array element => { getTypeFromClangType element with isArray := true }
  | .named typeName => { name := typeName }

def getFunctionFromClangDecl (Fdecl : ClangDecl) : Function where
  getName := Fdecl.getName
  getParams := Fdecl.params.map fun paramDecl =>
    { type := getTypeFromClangType paramDecl.2, name := paramDecl.1 }
  getReturnType :=
    if Fdecl.getReturnType.isVoidType then { name := "void" }
    else getTypeFromClangType Fdecl.getReturnType

/-- The case of `void` is the one that `getTypeFromClangType` has for it. -/
theorem getReturnType_getFunctionFromClangDecl (Fdecl : ClangDecl) :
    (getFunctionFromClangDecl Fdecl).getReturnType = getTypeFromClangType Fdecl.getReturnType := by
  unfold getFunctionFromClangDecl
  dsimp only
  split
  case isFalse => rfl
  case isTrue hvoid =>
    cases htype : Fdecl.getReturnType with
    | named typeName =>
      rw [htype] at hvoid
      rw [getTypeFromClangType, eq_of_beq hvoid]
    | pointer pointee => simp [htype, ClangType.isVoidType] at hvoid
    | array element => simp [htype, ClangType.isVoidType] at hvoid
    | decayed original => simp [htype, ClangType.isVoidType] at hvoid

/-! ## What is kept of a type -/

open ClangType

theorem getTypeFromClangType_eq (t : ClangType) :
    getTypeFromClangType t =
      { name := t.base
        isPtr := decide (Level.pointer ∈ t.levels)
        isArray := decide (Level.array ∈ t.levels) } := by
  induction t with
  | named typeName => rfl
  | pointer pointee ih => simp [getTypeFromClangType, ih, base, levels]
  | array element ih => simp [getTypeFromClangType, ih, base, levels]
  | decayed original ih => rw [getTypeFromClangType, ih, base, levels]

theorem getTypeFromClangType_inj (t u : ClangType) :
    getTypeFromClangType t = getTypeFromClangType u ↔
      t.base = u.base ∧ ∀ level, level ∈ t.levels ↔ level ∈ u.levels := by
  rw [getTypeFromClangType_eq, getTypeFromClangType_eq, CType.mk.injEq]
  constructor
  · rintro ⟨hbase, -, hptr, harray⟩
    refine ⟨hbase, fun level => ?_⟩
    cases level with
    | pointer => exact decide_eq_decide.1 hptr
    | array => exact decide_eq_decide.1 harray
  · rintro ⟨hbase, hlevels⟩
    exact ⟨hbase, rfl, decide_eq_decide.2 (hlevels .pointer), decide_eq_decide.2 (hlevels .array)⟩

/-! ## The text of a type -/

/-- The character that a level is written with, once. -/
def sign : Level → Char
  | .pointer => '*'
  | .array => '['

theorem count_sign_spell (base : String) (levels : List Level) (declarator : String)
    (level : Level) :
    (spell base levels declarator).toList.count (sign level) =
      base.toList.count (sign level) + levels.count level +
        declarator.toList.count (sign level) := by
  induction levels, declarator using spell.induct with
  | case1 declarator => simp [spell]
  | case2 declarator levels ih =>
    rw [spell, ih]
    cases level <;> simp [sign] <;> omega
  | case3 declarator levels hne ih =>
    rw [spell, ih]
    · cases level
      · simp [sign]
        omega
      · simp [sign]
    · exact hne
  | case4 declarator levels ih =>
    rw [spell, ih]
    cases level
    · simp [sign]
    · simp [sign]
      omega

/-- The text of the kept type has the character of a level at most once. -/
theorem count_sign_getAsString (t : ClangType) (level : Level) :
    (getTypeFromClangType t).getAsString.toList.count (sign level) =
      t.base.toList.count (sign level) + if level ∈ t.levels then 1 else 0 := by
  rw [getTypeFromClangType_eq]
  unfold CType.getAsString
  by_cases hptr : Level.pointer ∈ t.levels <;> by_cases harray : Level.array ∈ t.levels <;>
    cases level <;> simp [hptr, harray, sign]

/-- Of two kinds of levels there are five lists without repetition. -/
theorem levels_of_nodup {levels : List Level} (hnodup : levels.Nodup) :
    levels = [.pointer, .array] ∨
      levels ∈ [[], [.pointer], [.array], [.array, .pointer]] := by
  match levels with
  | [] => decide
  | [level] => cases level <;> decide
  | [level, level'] => revert hnodup; cases level <;> cases level' <;> decide
  | level :: level' :: level'' :: levels =>
    cases level <;> cases level' <;> cases level'' <;> simp at hnodup

theorem getAsString_eq_spelled_iff (t : ClangType) :
    (getTypeFromClangType t).getAsString = t.spelled ↔
      t.levels ∈ [[], [.pointer], [.array], [.array, .pointer]] := by
  constructor
  · intro htext
    have hcount : ∀ level, t.levels.count level = if level ∈ t.levels then 1 else 0 := by
      intro level
      have hkept := count_sign_getAsString t level
      rw [htext, spelled, count_sign_spell] at hkept
      simpa using hkept
    have hnodup : t.levels.Nodup := by
      rw [List.nodup_iff_count_le_one]
      intro level
      rw [hcount]
      split <;> decide
    refine (levels_of_nodup hnodup).resolve_left fun hlevels => ?_
    -- the parentheses of a pointer to an array are missing
    rw [getTypeFromClangType_eq, spelled, hlevels] at htext
    have hlength := congrArg String.length htext
    simp [CType.getAsString, spell, Nat.add_assoc] at hlength
    exact absurd hlength (by decide)
  · intro hlevels
    rw [getTypeFromClangType_eq, spelled]
    simp only [List.mem_cons, List.not_mem_nil, or_false] at hlevels
    rcases hlevels with hlevels | hlevels | hlevels | hlevels <;>
      simp [hlevels, CType.getAsString, spell, String.append_assoc]

/-- **What survives the front end.**  The base does, and of the pointers and arrays on top of it that
there are any; the text is the one of the type only with at most one of each, the array outside. -/
theorem getTypeFromClangType_shape (t u : ClangType) :
    getTypeFromClangType t =
        { name := t.base
          isPtr := decide (Level.pointer ∈ t.levels)
          isArray := decide (Level.array ∈ t.levels) } ∧
      ((getTypeFromClangType t).getAsString = t.spelled ↔
        t.levels ∈ [[], [.pointer], [.array], [.array, .pointer]]) ∧
      (getTypeFromClangType t = getTypeFromClangType u ↔
        t.base = u.base ∧ ∀ level, level ∈ t.levels ↔ level ∈ u.levels) :=
  ⟨getTypeFromClangType_eq t, getAsString_eq_spelled_iff t, getTypeFromClangType_inj t u⟩

/-- `char **` and `char *` get one type. -/
theorem charPtrPtr_flattened :
    getTypeFromClangType (.pointer (.pointer (.named "char"))) =
        getTypeFromClangType (.pointer (.named "char")) ∧
      (ClangType.pointer (.pointer (.named "char"))).levels ≠
        (ClangType.pointer (.named "char")).levels ∧
      (getTypeFromClangType (.pointer (.pointer (.named "char")))).getAsString ≠
        (ClangType.pointer (.pointer (.named "char"))).spelled := by
  decide

end FunctionFinder

end Vazgen
