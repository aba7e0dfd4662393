import Mathlib.Data.List.Basic

/-!
# Buffers and the strings in them

A buffer is what lies within the extent of an array.  Reading or writing past its end is undefined
(`none`).

    strlen nul buffer = some n ↔ buffer = n elements that are not nul, a nul, and any others
                                                                      (strlen_eq_some_iff)
-/

namespace Buffer

variable {Byte : Type}

/-- Copy `n` elements. -/
def memcpy (dest src : List Byte) (n : Nat) : Option (List Byte) :=
  if n ≤ dest.length ∧ n ≤ src.length then some (src.take n ++ dest.drop n) else none

/-- A copy that fills its destination. -/
theorem memcpy_eq {dest src : List Byte} {n : Nat} (hdest : dest.length = n)
    (hsrc : n ≤ src.length) : memcpy dest src n = some (src.take n) := by
  rw [memcpy, if_pos ⟨Nat.le_of_eq hdest.symm, hsrc⟩, List.drop_of_length_le (Nat.le_of_eq hdest),
    List.append_nil]

section Strlen

variable (nul : Byte)

/-- The first elements of a buffer are `contents` and a nul. -/
def Holds (contents buffer : List Byte) : Prop := ∃ rest, buffer = contents ++ nul :: rest

variable [DecidableEq Byte]

/-- The number of elements before the first nul. -/
def strlen : List Byte → Option Nat
  | [] => none
  | b :: bytes => if b = nul then some 0 else (strlen bytes).map (· + 1)

variable {nul}

theorem strlen_eq_some_iff {buffer : List Byte} {n : Nat} :
    strlen nul buffer = some n ↔
      ∃ contents, nul ∉ contents ∧ contents.length = n ∧ Holds nul contents buffer := by
  induction buffer generalizing n with
  | nil =>
    refine iff_of_false nofun ?_
    rintro ⟨contents, -, -, rest, h⟩
    cases contents <;> cases h
  | cons b bytes ih =>
    rw [strlen]
    split
    · next hb =>
      constructor
      · intro h
        cases h
        exact ⟨[], List.not_mem_nil, rfl, bytes, by rw [hb]; rfl⟩
      · rintro ⟨contents, hnul, rfl, rest, h⟩
        cases contents with
        | nil => rfl
        | cons c contents =>
          cases h
          exact absurd List.mem_cons_self (hb ▸ hnul)
    · next hb =>
      rw [Option.map_eq_some_iff]
      constructor
      · rintro ⟨m, hm, rfl⟩
        obtain ⟨contents, hnul, rfl, rest, rfl⟩ := ih.1 hm
        refine ⟨b :: contents, fun h => ?_, rfl, rest, rfl⟩
        rcases List.mem_cons.1 h with h | h
        · exact hb h.symm
        · exact hnul h
      · rintro ⟨contents, hnul, rfl, rest, h⟩
        cases contents with
        | nil =>
          cases h
          exact absurd rfl hb
        | cons c contents =>
          cases h
          exact ⟨contents.length,
            ih.2 ⟨contents, fun h => hnul (List.mem_cons_of_mem _ h), rfl, rest, rfl⟩, rfl⟩

theorem strlen_eq_none_iff {buffer : List Byte} : strlen nul buffer = none ↔ nul ∉ buffer := by
  induction buffer with
  | nil => simp [strlen]
  | cons b bytes ih =>
    rw [strlen]
    split
    · next hb => simp [hb]
    · next hb => simp [ih, Ne.symm hb]

end Strlen

end Buffer
