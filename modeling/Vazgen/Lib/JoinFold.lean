import Mathlib.Data.Finset.Lattice.Basic

/-!
# Folds that join

A fold that joins what each element of a list contributes, and has no result when some element has
no contribution.  Its result is the least upper bound of the contributions (`le_iff`), so the list
matters up to its members only (`eq_of_mem_iff`), and more members give a larger result (`le_of_subset`).
-/

namespace JoinFold

variable {ι α : Type} [SemilatticeSup α]

/-- Join what every element of `l` contributes to `s`. -/
def joinFold (c : ι → Option α) (s : α) (l : List ι) : Option α :=
  l.foldlM (fun s i => (c i).map (s ⊔ ·)) s

variable {c c' : ι → Option α} {s s' t t' : α} {l l' : List ι}

theorem joinFold_cons_eq_some {i : ι} :
    joinFold c s (i :: l) = some t ↔ ∃ x, c i = some x ∧ joinFold c (s ⊔ x) l = some t := by
  unfold joinFold
  rw [List.foldlM_cons]
  cases c i with
  | none => simp
  | some x => simp

/-- There is a result when every element contributes. -/
theorem exists_iff : (∃ t, joinFold c s l = some t) ↔ ∀ i ∈ l, ∃ x, c i = some x := by
  induction l generalizing s with
  | nil => simp [joinFold]
  | cons i l ih =>
    rw [List.forall_mem_cons]
    constructor
    · rintro ⟨t, ht⟩
      obtain ⟨x, hx, ht⟩ := joinFold_cons_eq_some.1 ht
      exact ⟨⟨x, hx⟩, ih.1 ⟨t, ht⟩⟩
    · rintro ⟨⟨x, hx⟩, hl⟩
      obtain ⟨t, ht⟩ := ih.2 hl
      exact ⟨t, joinFold_cons_eq_some.2 ⟨x, hx, ht⟩⟩

/-- **The result is the least upper bound.** -/
theorem le_iff (h : joinFold c s l = some t) (u : α) :
    t ≤ u ↔ s ≤ u ∧ ∀ i ∈ l, ∀ x, c i = some x → x ≤ u := by
  induction l generalizing s with
  | nil =>
    cases h
    simp
  | cons i l ih =>
    obtain ⟨x, hx, h⟩ := joinFold_cons_eq_some.1 h
    rw [ih h, sup_le_iff, List.forall_mem_cons, and_assoc]
    have hi : (∀ y, c i = some y → y ≤ u) ↔ x ≤ u := by simp [hx]
    rw [hi]

/-- A joined set contains what the elements contribute. -/
theorem mem_iff {β : Type} [DecidableEq β] {c : ι → Option (Finset β)} {s t : Finset β}
    {l : List ι} (h : joinFold c s l = some t) (b : β) :
    b ∈ t ↔ b ∈ s ∨ ∃ i ∈ l, ∃ x, c i = some x ∧ b ∈ x := by
  induction l generalizing s with
  | nil =>
    cases h
    simp
  | cons i l ih =>
    obtain ⟨x, hx, h⟩ := joinFold_cons_eq_some.1 h
    have hi : (∃ y, c i = some y ∧ b ∈ y) ↔ b ∈ x := by simp [hx]
    rw [ih h, List.exists_mem_cons_iff, hi, ← or_assoc]
    exact or_congr_left Finset.mem_union

theorem le_of_subset (h : joinFold c s l = some t) (h' : joinFold c' s' l' = some t')
    (hs : s ≤ s') (hl : ∀ i ∈ l, i ∈ l')
    (hc : ∀ i ∈ l, ∀ x y, c i = some x → c' i = some y → x ≤ y) : t ≤ t' := by
  obtain ⟨hs', hl'⟩ := (le_iff h' t').1 le_rfl
  refine (le_iff h t').2 ⟨hs.trans hs', fun i hi x hx => ?_⟩
  obtain ⟨y, hy⟩ := exists_iff.1 ⟨t', h'⟩ i (hl i hi)
  exact (hc i hi x y hx hy).trans (hl' i (hl i hi) y hy)

/-- Order and repetition do not matter. -/
theorem eq_of_mem_iff (hl : ∀ i, i ∈ l ↔ i ∈ l') : joinFold c s l = joinFold c s l' := by
  have hsub : ∀ {l l' : List ι}, (∀ i ∈ l, i ∈ l') → ∀ t t', joinFold c s l = some t →
      joinFold c s l' = some t' → t ≤ t' := fun hl t t' h h' =>
    le_of_subset h h' le_rfl hl fun i _ x y hx hy => (Option.some.inj (hx.symm.trans hy)).le
  cases h : joinFold c s l with
  | none =>
    cases h' : joinFold c s l' with
    | none => rfl
    | some t' =>
      obtain ⟨t, ht⟩ := exists_iff.2 fun i hi => exists_iff.1 ⟨t', h'⟩ i ((hl i).1 hi)
      rw [h] at ht
      cases ht
  | some t =>
    obtain ⟨t', h'⟩ := exists_iff.2 fun i hi => exists_iff.1 ⟨t, h⟩ i ((hl i).2 hi)
    rw [h', le_antisymm (hsub (fun i => (hl i).1) t t' h h') (hsub (fun i => (hl i).2) t' t h' h)]

end JoinFold
