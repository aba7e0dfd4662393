import Mathlib.Algebra.Group.Nat.Defs
import Mathlib.Data.List.Basic

/-!
# JSON documents

`JsonLibrary` is what a program can rely on of a library for JSON documents: documents `J` that are
read and built key by key, their texts `Text`, and the numbers `R` that can be stored.  An operation
that throws has the result `none`.  `Json.library` is one such library, over a tree.
-/

structure JsonLibrary (J Text R : Type) where
  null : J
  ofString : String → J
  ofUnsigned : Nat → J
  ofNumber : R → J
  ofStrings : List String → J
  isObject : J → Bool
  isArray : J → Bool
  /-- `j[key]`, read -/
  getKey : J → String → Option J
  /-- `j[key] = value` -/
  setKey : J → String → J → Option J
  find : J → String → Option J
  pushBack : J → J → Option J
  /-- what a range-based loop visits -/
  elements : J → List J
  toString? : J → Option String
  toInt? : J → Option Int
  dump : J → Text
  parse : Text → Option J
  find_null : ∀ key, find null key = none
  getKey_null : ∀ key, getKey null key = some null
  getKey_object : ∀ j key, isObject j = true → getKey j key = some ((find j key).getD null)
  /-- A key can be set in an object, and in `null`, which becomes one. -/
  setKey_spec : ∀ j key value, j = null ∨ isObject j = true →
    ∃ j', setKey j key value = some j' ∧ isObject j' = true ∧ find j' key = some value ∧
      ∀ other, other ≠ key → find j' other = find j other
  elements_null : elements null = []
  elements_ofStrings : ∀ strings, elements (ofStrings strings) = strings.map ofString
  /-- An element can be added to an array, and to `null`, which becomes one. -/
  pushBack_spec : ∀ j value, j = null ∨ isArray j = true →
    ∃ j', pushBack j value = some j' ∧ isArray j' = true ∧ elements j' = elements j ++ [value]
  toString?_ofString : ∀ s, toString? (ofString s) = some s
  toInt?_ofUnsigned : ∀ n : Nat, toInt? (ofUnsigned n) = some ((n : Int).bmod (2 ^ 32))
  parse_dump : ∀ j, parse (dump j) = some j

namespace JsonLibrary

variable {J Text R : Type} (lib : JsonLibrary J Text R)

/-- A floating-point number; `none` is NaN or infinite, which is written as `null`. -/
def ofNumber? (value : Option R) : J := (value.map lib.ofNumber).getD lib.null

/-! ## Objects -/

/-- What keys can be set in. -/
def IsContainer (j : J) : Prop := j = lib.null ∨ lib.isObject j = true

theorem isContainer_null : lib.IsContainer lib.null := .inl rfl

variable {lib} {j : J}

theorem getKey_of_isContainer (h : lib.IsContainer j) (key : String) :
    lib.getKey j key = some ((lib.find j key).getD lib.null) := by
  rcases h with rfl | h
  · rw [lib.getKey_null, lib.find_null]
    rfl
  · exact lib.getKey_object j key h

theorem exists_setKey (h : lib.IsContainer j) (key : String) (value : J) :
    ∃ j', lib.setKey j key value = some j' ∧ lib.IsContainer j' ∧
      ∀ other, lib.find j' other = if other = key then some value else lib.find j other := by
  obtain ⟨j', hset, hobject, hkey, hother⟩ := lib.setKey_spec j key value h
  refine ⟨j', hset, .inr hobject, fun other => ?_⟩
  split
  · next heq => rw [heq, hkey]
  · next hne => exact hother other hne

/-! ## Paths -/

variable (lib)

/-- `j[key₁]..[keyₙ] = value` -/
def setPath (j : J) : List String → J → Option J
  | [], value => some value
  | key :: keys, value => do
    let sub ← lib.getKey j key
    lib.setKey j key (← setPath sub keys value)

/-- `j[key₁]..[keyₙ]`, read -/
def getPath (j : J) : List String → Option J
  | [] => some j
  | key :: keys => do
    let sub ← lib.getKey j key
    getPath sub keys

/-- Paths of `n` keys can be set: what is there on the way is a container. -/
def Writable : Nat → J → Prop
  | 0, _ => True
  | n + 1, j => lib.IsContainer j ∧ Writable n lib.null ∧
    ∀ key sub, lib.find j key = some sub → Writable n sub

theorem writable_null : ∀ n, lib.Writable n lib.null
  | 0 => trivial
  | n + 1 => ⟨lib.isContainer_null, writable_null n, fun key sub hsub => by
      rw [lib.find_null] at hsub
      cases hsub⟩

variable {lib} {j : J} {n : Nat}

theorem Writable.isContainer (h : lib.Writable (n + 1) j) : lib.IsContainer j := h.1

/-- What stands under a key, or is made there. -/
theorem Writable.getD (h : lib.Writable (n + 1) j) (key : String) :
    lib.Writable n ((lib.find j key).getD lib.null) := by
  cases hsub : lib.find j key with
  | none => exact h.2.1
  | some sub => exact h.2.2 key sub hsub

/-- After a path is set, it leads to the value, and the other paths lead to where they led before. -/
theorem exists_setPath (keys : List String) (value : J) (h : lib.Writable keys.length j) :
    ∃ j', lib.setPath j keys value = some j' ∧ lib.Writable keys.length j' ∧
      ∀ other : List String, other.length = keys.length →
        lib.getPath j' other = if other = keys then some value else lib.getPath j other := by
  induction keys generalizing j with
  | nil =>
    refine ⟨value, rfl, trivial, fun other hlen => ?_⟩
    obtain rfl := List.length_eq_zero_iff.1 hlen
    rfl
  | cons key keys ih =>
    obtain ⟨sub, hsub, hwritable, hpaths⟩ := ih (h.getD key)
    obtain ⟨j', hset, hcontainer, hfind⟩ := exists_setKey h.isContainer key sub
    refine ⟨j', ?_, ⟨hcontainer, writable_null lib _, fun other sub' hsub' => ?_⟩,
      fun other hlen => ?_⟩
    · rw [setPath, getKey_of_isContainer h.isContainer]
      simp only [Option.bind_eq_bind, Option.bind_some, hsub, hset]
    · rw [hfind] at hsub'
      split at hsub'
      · exact Option.some.inj hsub' ▸ hwritable
      · exact h.2.2 other sub' hsub'
    · cases other with
      | nil => cases hlen
      | cons first other =>
        have hlen : other.length = keys.length := Nat.succ.inj hlen
        simp only [getPath, getKey_of_isContainer hcontainer, getKey_of_isContainer h.isContainer,
          hfind, Option.bind_eq_bind, Option.bind_some, List.cons.injEq]
        by_cases hfirst : first = key
        · rw [if_pos hfirst, Option.getD_some, hpaths other hlen, hfirst]
          simp
        · rw [if_neg hfirst, if_neg fun h => hfirst h.1]

end JsonLibrary

/-! ## Trees -/

inductive Json (R : Type) where
  | null
  | boolean (value : Bool)
  | integer (value : Int)
  | number (value : R)
  | string (value : String)
  | array (elements : List (Json R))
  | object (fields : List (String × Json R))

namespace Json

variable {R : Type}

def isObject : Json R → Bool
  | .object _ => true
  | _ => false

def isArray : Json R → Bool
  | .array _ => true
  | _ => false

def find : Json R → String → Option (Json R)
  | .object fields, key => fields.lookup key
  | _, _ => none

def getKey : Json R → String → Option (Json R)
  | .null, _ => some .null
  | .object fields, key => some ((fields.lookup key).getD .null)
  | _, _ => none

/-- The fields with a key set, which keeps its place. -/
def setField (key : String) (value : Json R) : List (String × Json R) → List (String × Json R)
  | [] => [(key, value)]
  | field :: fields =>
    if field.1 = key then (key, value) :: fields else field :: setField key value fields

def setKey : Json R → String → Json R → Option (Json R)
  | .null, key, value => some (.object [(key, value)])
  | .object fields, key, value => some (.object (setField key value fields))
  | _, _, _ => none

def pushBack : Json R → Json R → Option (Json R)
  | .null, value => some (.array [value])
  | .array elements, value => some (.array (elements ++ [value]))
  | _, _ => none

def elements : Json R → List (Json R)
  | .null => []
  | .array elements => elements
  | .object fields => fields.map (·.2)
  | value => [value]

def toString? : Json R → Option String
  | .string value => some value
  | _ => none

/-- Booleans and numbers are read as integers too, the latter by `truncate`. -/
def toInt? (truncate : R → Int) : Json R → Option Int
  | .boolean value => some (if value then 1 else 0)
  | .integer value => some (value.bmod (2 ^ 32))
  | .number value => some (truncate value)
  | _ => none

theorem lookup_cons_eq (field : String × Json R) (fields : List (String × Json R)) (key : String) :
    (field :: fields).lookup key = if key = field.1 then some field.2 else fields.lookup key := by
  rw [List.lookup_cons]
  by_cases h : key = field.1
  · rw [if_pos h, beq_iff_eq.2 h]
  · rw [if_neg h, beq_false_of_ne h]

theorem lookup_setField (key : String) (value : Json R) (fields : List (String × Json R))
    (other : String) : (setField key value fields).lookup other =
      if other = key then some value else fields.lookup other := by
  induction fields with
  | nil => exact lookup_cons_eq (key, value) [] other
  | cons field fields ih =>
    unfold setField
    by_cases hfield : field.1 = key
    · rw [if_pos hfield, lookup_cons_eq, lookup_cons_eq, hfield]
      split <;> rfl
    · rw [if_neg hfield, lookup_cons_eq, lookup_cons_eq, ih]
      by_cases h : other = field.1
      · rw [if_pos h, if_pos h, if_neg (h ▸ hfield)]
      · rw [if_neg h, if_neg h]

/-- The library over trees, whose text is the tree itself. -/
def library (truncate : R → Int) : JsonLibrary (Json R) (Json R) R where
  null := .null
  ofString := .string
  ofUnsigned := fun n => .integer n
  ofNumber := .number
  ofStrings := fun strings => .array (strings.map .string)
  isObject := isObject
  isArray := isArray
  getKey := getKey
  setKey := setKey
  find := find
  pushBack := pushBack
  elements := elements
  toString? := toString?
  toInt? := toInt? truncate
  dump := id
  parse := some
  find_null := fun _ => rfl
  getKey_null := fun _ => rfl
  getKey_object := fun j key h => by
    cases j <;> first | rfl | cases h
  setKey_spec := fun j key value h => by
    cases j with
    | null =>
      refine ⟨_, rfl, rfl, ?_, fun other hne => ?_⟩
      · exact (lookup_setField key value [] key).trans (if_pos rfl)
      · exact (lookup_setField key value [] other).trans (if_neg hne)
    | object fields =>
      refine ⟨_, rfl, rfl, ?_, fun other hne => ?_⟩
      · exact (lookup_setField key value fields key).trans (if_pos rfl)
      · exact (lookup_setField key value fields other).trans (if_neg hne)
    | _ => exact absurd h (by simp [isObject])
  elements_null := rfl
  elements_ofStrings := fun _ => rfl
  pushBack_spec := fun j value h => by
    cases j with
    | null => exact ⟨_, rfl, rfl, rfl⟩
    | array elements => exact ⟨_, rfl, rfl, rfl⟩
    | _ => exact absurd h (by simp [isArray])
  toString?_ofString := fun _ => rfl
  toInt?_ofUnsigned := fun _ => rfl
  parse_dump := fun _ => rfl

end Json
