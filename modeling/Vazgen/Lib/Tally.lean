import Mathlib.Algebra.BigOperators.Group.List.Basic
import Mathlib.Algebra.Ring.Int.Defs
import Mathlib.Data.List.Nodup

/-!
# Tallies

A tally of a list has a row for each of its elements, with the number of its occurrences.  The rows of
some elements add up to the number of these elements (`Tally.sum_filter`).
-/

variable {α : Type} [DecidableEq α] {l : List α} {rows : List (α × Int)}

/-- Rows for the elements of `l`, and maybe for others; the numbers of these are 0. -/
structure Tally (l : List α) (rows : List (α × Int)) : Prop where
  nodup : (rows.map Prod.fst).Nodup
  count : ∀ row ∈ rows, row.2 = l.count row.1
  complete : ∀ a ∈ l, a ∈ rows.map Prod.fst

namespace Tally

/-- Without its first row a table is a tally of the other elements. -/
theorem tail {row : α × Int} (h : Tally l (row :: rows)) :
    Tally (l.filter fun a => !decide (a = row.1)) rows := by
  obtain ⟨hrow, hrows⟩ := List.nodup_cons.1 h.nodup
  refine ⟨hrows, fun other hother => ?_, fun a ha => ?_⟩
  · have hne : other.1 ≠ row.1 := fun heq => hrow (heq ▸ List.mem_map_of_mem hother)
    rw [List.count_filter (by simpa using hne)]
    exact h.count other (List.mem_cons_of_mem _ hother)
  · obtain ⟨hal, hne⟩ := List.mem_filter.1 ha
    rcases List.mem_cons.1 (h.complete a hal) with rfl | hmem
    · simp at hne
    · exact hmem

/-- **The rows of the elements with `p`.** -/
theorem sum_filter (h : Tally l rows) (p : α → Bool) :
    ((rows.filter fun row => p row.1).map Prod.snd).sum = l.countP p := by
  induction rows generalizing l with
  | nil =>
    have hnil : l = [] := List.eq_nil_iff_forall_not_mem.2 fun a ha => nomatch h.complete a ha
    subst hnil
    rfl
  | cons row rows ih =>
    have hsplit : l.countP p = (if p row.1 then l.count row.1 else 0) +
        (l.filter fun a => !decide (a = row.1)).countP p := by
      rw [List.countP_eq_countP_filter_add l p fun a => decide (a = row.1)]
      congr 1
      rw [List.countP_filter]
      split
      · next hp =>
        refine List.countP_congr fun a _ => ?_
        simp only [Bool.and_eq_true, decide_eq_true_eq, beq_iff_eq]
        exact ⟨And.right, fun heq => ⟨heq ▸ hp, heq⟩⟩
      · next hp =>
        refine List.countP_eq_zero.2 fun a _ hand => hp ?_
        simp only [Bool.and_eq_true, decide_eq_true_eq] at hand
        exact hand.2 ▸ hand.1
    have hrest := ih h.tail
    rw [hsplit, List.filter_cons]
    split
    · rw [List.map_cons, List.sum_cons, hrest, h.count row List.mem_cons_self]
      push_cast
      rfl
    · rw [hrest, Nat.zero_add]

end Tally
