import Mathlib.Data.List.Basic

/-!
# Stacks of typed slots

A value is popped at the type it was pushed at: a pop at any other type is undefined (`none`), and so
is a pop from the empty stack.

    popAll types stack = some (values, rest) ↔ stack = [slots of these types and values] ++ rest
                                                                        (popAll_eq_some_iff)
-/

namespace ParameterStack

variable {T Val : Type}

structure Slot (T Val : Type) where
  type : T
  value : Val
deriving DecidableEq

/-- Slots are determined by their types and their values. -/
theorem eq_of_types_values {slots slots' : List (Slot T Val)}
    (htypes : slots.map (·.type) = slots'.map (·.type))
    (hvalues : slots.map (·.value) = slots'.map (·.value)) : slots = slots' := by
  induction slots generalizing slots' with
  | nil => exact (List.map_eq_nil_iff.1 htypes.symm).symm
  | cons slot slots ih =>
    cases slots' with
    | nil => cases htypes
    | cons slot' slots' =>
      obtain ⟨t, v⟩ := slot
      obtain ⟨t', v'⟩ := slot'
      simp only [List.map_cons, List.cons.injEq] at htypes hvalues
      rw [htypes.1, hvalues.1, ih htypes.2 hvalues.2]

/-- Push the slots one after the other; the head of a stack is its top. -/
def pushAll (slots stack : List (Slot T Val)) : List (Slot T Val) :=
  slots.foldl (fun stack slot => slot :: stack) stack

theorem pushAll_eq (slots stack : List (Slot T Val)) :
    pushAll slots stack = slots.reverse ++ stack := by
  unfold pushAll
  induction slots generalizing stack with
  | nil => rfl
  | cons slot slots ih => rw [List.foldl_cons, ih, List.reverse_cons, List.append_assoc]; rfl

section Pop

variable [DecidableEq T]

def pop (type : T) : List (Slot T Val) → Option (Val × List (Slot T Val))
  | [] => none
  | slot :: stack => if slot.type = type then some (slot.value, stack) else none

theorem pop_eq_some_iff {type : T} {value : Val} {stack rest : List (Slot T Val)} :
    pop type stack = some (value, rest) ↔ stack = ⟨type, value⟩ :: rest := by
  cases stack with
  | nil => simp [pop]
  | cons slot stack =>
    obtain ⟨t, v⟩ := slot
    unfold pop
    dsimp only
    split
    · next h => simp [h]
    · next h => simp [h]

/-- Pop at the given types, one after the other. -/
def popAll : List T → List (Slot T Val) → Option (List Val × List (Slot T Val))
  | [], stack => some ([], stack)
  | type :: types, stack =>
    (pop type stack).bind fun (value, stack) =>
      (popAll types stack).map fun (values, rest) => (value :: values, rest)

theorem popAll_eq_some_iff {types : List T} {values : List Val} {stack rest : List (Slot T Val)} :
    popAll types stack = some (values, rest) ↔
      ∃ slots : List (Slot T Val), slots.map (·.type) = types ∧ slots.map (·.value) = values ∧
        stack = slots ++ rest := by
  induction types generalizing values stack with
  | nil =>
    constructor
    · rintro h
      cases h
      exact ⟨[], rfl, rfl, rfl⟩
    · rintro ⟨slots, htypes, rfl, rfl⟩
      rw [List.map_eq_nil_iff.1 htypes]
      rfl
  | cons type types ih =>
    unfold popAll
    constructor
    · intro h
      obtain ⟨⟨value, stack'⟩, hpop, h⟩ := Option.bind_eq_some_iff.1 h
      obtain ⟨⟨values', rest'⟩, hpopAll, h⟩ := Option.map_eq_some_iff.1 h
      cases h
      obtain ⟨slots, rfl, rfl, rfl⟩ := ih.1 hpopAll
      exact ⟨⟨type, value⟩ :: slots, rfl, rfl, pop_eq_some_iff.1 hpop⟩
    · rintro ⟨slots, htypes, rfl, rfl⟩
      cases slots with
      | nil => cases htypes
      | cons slot slots =>
        obtain ⟨t, v⟩ := slot
        rw [List.map_cons, List.cons.injEq] at htypes
        obtain ⟨rfl, htypes⟩ := htypes
        refine Option.bind_eq_some_iff.2 ⟨(v, slots ++ rest), pop_eq_some_iff.2 rfl, ?_⟩
        exact Option.map_eq_some_iff.2 ⟨(_, rest), ih.2 ⟨slots, htypes, rfl, rfl⟩, rfl⟩

/-- Popping at the types of some slots gives their values exactly if the slots are on the top. -/
theorem popAll_map_iff {slots stack rest : List (Slot T Val)} :
    popAll (slots.map (·.type)) stack = some (slots.map (·.value), rest) ↔
      stack = slots ++ rest := by
  rw [popAll_eq_some_iff]
  constructor
  · rintro ⟨slots', htypes, hvalues, rfl⟩
    rw [eq_of_types_values htypes hvalues]
  · intro h
    exact ⟨slots, rfl, rfl, h⟩

end Pop

end ParameterStack
