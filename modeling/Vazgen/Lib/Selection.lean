import Mathlib.Data.List.Nodup
import Mathlib.Data.List.Perm.Basic

/-!
# Drawing without replacement

The elements that are left are kept at the front of a list.  An element is drawn from any of these
places and swapped with the last of them, which then no longer counts.  What was drawn and what is
left is always a permutation of the list (`Drawn`).
-/

namespace Selection

variable {α : Type}

/-- `none` where one of the two places does not exist. -/
def swap (l : List α) (i j : Nat) : Option (List α) := do
  let a ← l[i]?
  let b ← l[j]?
  return (l.set i b).set j a

/-- The element before and the others behind the swap are those from before it. -/
theorem cons_dropLast_set_perm {l : List α} {last : α} {i : Nat} (hi : i < (l ++ [last]).length) :
    ((l ++ [last])[i] :: ((l ++ [last]).set i last).dropLast).Perm (l ++ [last]) := by
  rw [List.length_append, List.length_singleton] at hi
  by_cases hlt : i < l.length
  · rw [List.set_append_left _ _ hlt, List.dropLast_concat, List.getElem_append_left hlt]
    have hset := List.set_perm_cons_eraseIdx hlt last
    refine (hset.cons _).trans ((List.Perm.swap _ _ _).trans ?_)
    refine ((List.getElem_cons_eraseIdx_perm hlt).cons last).trans ?_
    exact (List.perm_append_singleton last l).symm
  · have heq : i = l.length := by omega
    subst heq
    rw [List.getElem_concat_length rfl, List.set_append_right _ _ (Nat.le_refl _), Nat.sub_self,
      List.set_cons_zero, List.dropLast_concat]
    exact (List.perm_append_singleton last l).symm

theorem exists_swap_last {l : List α} {i m : Nat} (hi : i < m) (hm : m ≤ l.length) :
    ∃ a l', l[i]? = some a ∧ swap l i (m - 1) = some l' ∧ l'.length = l.length ∧
      (a :: l'.take (m - 1)).Perm (l.take m) := by
  have hil : i < l.length := by omega
  have hml : m - 1 < l.length := by omega
  refine ⟨l[i], (l.set i l[m - 1]).set (m - 1) l[i], List.getElem?_eq_getElem hil, ?_, ?_, ?_⟩
  · unfold swap
    rw [List.getElem?_eq_getElem hil, List.getElem?_eq_getElem hml]
    rfl
  · rw [List.length_set, List.length_set]
  · have htake : l.take m = l.take (m - 1) ++ [l[m - 1]] := by
      rw [List.take_append_getElem hml, Nat.sub_add_cancel (by omega)]
    have hlen : i < (l.take (m - 1) ++ [l[m - 1]]).length := by
      rw [List.length_append, List.length_take_of_le (by omega), List.length_singleton]
      omega
    have hdrop : ((l.set i l[m - 1]).set (m - 1) l[i]).take (m - 1) =
        ((l.take (m - 1) ++ [l[m - 1]]).set i l[m - 1]).dropLast := by
      rw [← htake, ← List.take_set, List.take_set_of_le (Nat.le_refl _), List.dropLast_eq_take,
        List.length_take_of_le (by rw [List.length_set]; exact hm), List.take_take,
        Nat.min_eq_left (Nat.sub_le m 1)]
    have hget : (l.take (m - 1) ++ [l[m - 1]])[i] = l[i] := by
      rw [List.getElem_of_eq htake.symm, List.getElem_take]
    have hperm := cons_dropLast_set_perm hlen
    rwa [hget, ← hdrop, ← htake] at hperm

/-- What was drawn, and the first `size` of the elements: together all of them. -/
structure Drawn (original all : List α) (size : Nat) (picked : List α) : Prop where
  length : all.length = original.length
  size_add : picked.length + size = original.length
  perm : (picked ++ all.take size).Perm original

variable {original all all' picked : List α} {size : Nat}

theorem Drawn.start (h : all.Perm original) : Drawn original all all.length [] where
  length := h.length_eq
  size_add := by rw [List.length_nil, Nat.zero_add, h.length_eq]
  perm := by rw [List.nil_append, List.take_length]; exact h

/-- Drawing from one of the places in use. -/
theorem Drawn.exists_step (h : Drawn original all size picked) {i : Nat} (hi : i < size) :
    ∃ a all', all[i]? = some a ∧ swap all i (size - 1) = some all' ∧
      Drawn original all' (size - 1) (picked ++ [a]) := by
  have hsize : size ≤ all.length := by
    rw [h.length, ← h.size_add]
    exact Nat.le_add_left _ _
  obtain ⟨a, all', ha, hswap, hlen, hperm⟩ := exists_swap_last hi hsize
  refine ⟨a, all', ha, hswap, hlen.trans h.length, ?_, ?_⟩
  · rw [List.length_append, List.length_singleton, ← h.size_add]
    omega
  · rw [List.append_assoc]
    exact (hperm.append_left picked).trans h.perm

theorem Drawn.nodup (h : Drawn original all size picked) (horiginal : original.Nodup) :
    picked.Nodup :=
  (h.perm.nodup_iff.2 horiginal).of_append_left

theorem Drawn.subset (h : Drawn original all size picked) {a : α} (ha : a ∈ picked) : a ∈ original :=
  h.perm.subset (List.mem_append_left _ ha)

end Selection
