import Mathlib.Algebra.BigOperators.Group.List.Basic
import Mathlib.Algebra.Order.BigOperators.Group.List
import Mathlib.Algebra.Order.Monoid.Unbundled.Pow

/-!
# Sums that stick at a top value

`satAdd top` adds, but keeps `top` once one of the two numbers is `top`.  A sum over a list ends at
`top` exactly if one of the numbers or of the running totals is `top` (`foldl_eq_top_iff`), and is the
ordinary sum otherwise (`foldl_eq_sum`).  The same for sums of such sums, over a list of lists.

Every order of the numbers gives the same sum, and none above `top`, exactly if one of them is `top`,
or they stay below it, or those that count are equal and meet it (`foldl_perm_iff`).
-/

namespace Saturation

variable {K : Type} [AddMonoid K] [DecidableEq K] {top a : K}

def satAdd (top a b : K) : K := if a = top ∨ b = top then top else a + b

/-! ## One list -/

/-- One of the numbers, or of the totals that start from `a`, is `top`. -/
def Meets (top a : K) (xs : List K) : Prop :=
  top ∈ xs ∨ ∃ before, before <+: xs ∧ a + before.sum = top

omit [DecidableEq K] in
theorem meets_nil : Meets top a [] ↔ a = top := by
  simp [Meets]

omit [DecidableEq K] in
theorem meets_cons {x : K} {xs : List K} :
    Meets top a (x :: xs) ↔ a = top ∨ x = top ∨ Meets top (a + x) xs := by
  unfold Meets
  simp only [List.mem_cons, List.prefix_cons_iff]
  constructor
  · rintro ((rfl | hmem) | ⟨before, rfl | ⟨rest, rfl, hrest⟩, hsum⟩)
    · exact .inr (.inl rfl)
    · exact .inr (.inr (.inl hmem))
    · exact .inl (by simpa using hsum)
    · exact .inr (.inr (.inr ⟨rest, hrest, by rw [← hsum, List.sum_cons, add_assoc]⟩))
  · rintro (rfl | rfl | hmem | ⟨rest, hrest, hsum⟩)
    · exact .inr ⟨[], .inl rfl, by simp⟩
    · exact .inl (.inl rfl)
    · exact .inl (.inr hmem)
    · exact .inr ⟨x :: rest, .inr ⟨rest, rfl, hrest⟩, by rw [← hsum, List.sum_cons, add_assoc]⟩

theorem foldl_top (xs : List K) : xs.foldl (satAdd top) top = top := by
  induction xs with
  | nil => rfl
  | cons x xs ih => rwa [List.foldl_cons, satAdd, if_pos (.inl rfl)]

theorem foldl_of_meets {xs : List K} (h : Meets top a xs) : xs.foldl (satAdd top) a = top := by
  induction xs generalizing a with
  | nil => exact meets_nil.1 h
  | cons x xs ih =>
    rw [List.foldl_cons, satAdd]
    split
    · exact foldl_top xs
    · next hne =>
      rw [not_or] at hne
      exact ih (((meets_cons.1 h).resolve_left hne.1).resolve_left hne.2)

theorem foldl_eq_sum {xs : List K} (h : ¬ Meets top a xs) :
    xs.foldl (satAdd top) a = a + xs.sum := by
  induction xs generalizing a with
  | nil => simp
  | cons x xs ih =>
    rw [meets_cons, not_or, not_or] at h
    rw [List.foldl_cons, satAdd, if_neg (not_or.2 ⟨h.1, h.2.1⟩), ih h.2.2, List.sum_cons, add_assoc]

theorem foldl_eq_top_iff {xs : List K} : xs.foldl (satAdd top) a = top ↔ Meets top a xs := by
  refine ⟨fun h => ?_, foldl_of_meets⟩
  by_contra hmeets
  rw [foldl_eq_sum hmeets] at h
  exact hmeets (.inr ⟨xs, List.prefix_rfl, h⟩)

/-! ## Any order -/

section Order

variable {K : Type} [AddCommMonoid K] [LinearOrder K] [IsOrderedCancelAddMonoid K] {top c : K}

/-- The numbers other than 0 are equal, and a multiple of them is `top`. -/
def StepsTo (top : K) (xs : List K) : Prop :=
  ∃ (c : K) (k : Nat), (∀ x ∈ xs, x = 0 ∨ x = c) ∧ k • c = top

omit [IsOrderedCancelAddMonoid K] in
theorem foldl_le_top_iff {xs : List K} :
    xs.foldl (satAdd top) 0 ≤ top ↔ Meets top 0 xs ∨ xs.sum ≤ top := by
  by_cases hmeets : Meets top 0 xs
  · rw [foldl_of_meets hmeets]
    exact iff_of_true le_rfl (.inl hmeets)
  · rw [foldl_eq_sum hmeets, zero_add, or_iff_right hmeets]

theorem foldl_nonneg {xs : List K} (htop : 0 < top) (hxs : ∀ x ∈ xs, 0 ≤ x) :
    0 ≤ xs.foldl (satAdd top) 0 := by
  by_cases hmeets : Meets top 0 xs
  · rw [foldl_of_meets hmeets]
    exact htop.le
  · rw [foldl_eq_sum hmeets, zero_add]
    exact List.sum_nonneg hxs

theorem sum_le_of_prefix {before xs : List K} (hxs : ∀ x ∈ xs, 0 ≤ x) (h : before <+: xs) :
    before.sum ≤ xs.sum := by
  obtain ⟨after, rfl⟩ := h
  rw [List.sum_append]
  exact le_add_of_nonneg_right (List.sum_nonneg fun x hx => hxs x (List.mem_append_right _ hx))

/-- Below `top` the sum is the ordinary one, and it meets `top` only at its end. -/
theorem foldl_of_sum_le {xs : List K} (hxs : ∀ x ∈ xs, 0 ≤ x) (hmem : top ∉ xs)
    (hsum : xs.sum ≤ top) : xs.foldl (satAdd top) 0 = xs.sum := by
  by_cases hmeets : Meets top 0 xs
  · obtain ⟨before, hbefore, heq⟩ := hmeets.resolve_left hmem
    rw [foldl_of_meets hmeets]
    refine le_antisymm ?_ hsum
    rw [← heq, zero_add]
    exact sum_le_of_prefix hxs hbefore
  · rw [foldl_eq_sum hmeets, zero_add]

/-- Equal steps reach each of their multiples up to the sum. -/
theorem exists_prefix_of_steps {xs : List K} (hc : 0 < c) (hxs : ∀ x ∈ xs, x = 0 ∨ x = c) (k : Nat)
    (hk : k • c ≤ xs.sum) : ∃ before, before <+: xs ∧ before.sum = k • c := by
  induction xs generalizing k with
  | nil => exact ⟨[], List.prefix_rfl, le_antisymm (nsmul_nonneg hc.le k) hk⟩
  | cons x xs ih =>
    obtain ⟨hx, htail⟩ := List.forall_mem_cons.1 hxs
    rw [List.sum_cons] at hk
    rcases hx with rfl | rfl
    · rw [zero_add] at hk
      obtain ⟨before, hbefore, hsum⟩ := ih htail k hk
      exact ⟨0 :: before, (List.prefix_cons_inj 0).2 hbefore, by rw [List.sum_cons, zero_add, hsum]⟩
    · cases k with
      | zero => exact ⟨[], List.nil_prefix, by rw [List.sum_nil, zero_nsmul]⟩
      | succ k =>
        rw [succ_nsmul', add_le_add_iff_left] at hk
        obtain ⟨before, hbefore, hsum⟩ := ih htail k hk
        exact ⟨x :: before, (List.prefix_cons_inj x).2 hbefore, by
          rw [List.sum_cons, hsum, succ_nsmul']⟩

omit [LinearOrder K] [IsOrderedCancelAddMonoid K] in
/-- A sum of equal steps is a multiple of them. -/
theorem exists_sum_eq_nsmul {xs : List K} (hxs : ∀ x ∈ xs, x = 0 ∨ x = c) :
    ∃ k : Nat, k • c = xs.sum := by
  induction xs with
  | nil => exact ⟨0, zero_nsmul c⟩
  | cons x xs ih =>
    obtain ⟨hx, htail⟩ := List.forall_mem_cons.1 hxs
    obtain ⟨k, hk⟩ := ih htail
    rcases hx with rfl | rfl
    · exact ⟨k, by rw [List.sum_cons, zero_add, hk]⟩
    · exact ⟨k + 1, by rw [List.sum_cons, succ_nsmul', hk]⟩

/-- A number before `top` is reached and one behind can change places: if `top` is still met, they are
equal. -/
theorem eq_of_meets_swap {before after : List K} {a b : K} (ha : 0 < a) (hb : 0 < b)
    (hbefore : ∀ x ∈ before, 0 ≤ x) (hafter : ∀ x ∈ after, 0 ≤ x) (hsum : before.sum + a = top)
    (hmem : top ∉ before ++ b :: a :: after) (hmeets : Meets top 0 (before ++ b :: a :: after)) :
    b = a := by
  obtain ⟨reached, hreached, heq⟩ := hmeets.resolve_left hmem
  rw [zero_add] at heq
  rcases List.prefix_or_prefix_of_prefix hreached (List.prefix_append before _) with
    hpre | ⟨rest, rfl⟩
  · -- `top` cannot be met before the two
    have hle : top ≤ before.sum := heq ▸ sum_le_of_prefix hbefore hpre
    exact absurd (hsum ▸ hle) (lt_add_of_pos_right _ ha).not_ge
  · have hrest := (List.prefix_append_right_inj before).1 hreached
    rw [List.sum_append] at heq
    have hrestSum : rest.sum = a := add_left_cancel (heq.trans hsum.symm)
    rcases List.prefix_cons_iff.1 hrest with rfl | ⟨tail, rfl, htail⟩
    · exact absurd hrestSum ha.ne
    rcases List.prefix_cons_iff.1 htail with rfl | ⟨last, rfl, hlast⟩
    · rw [List.sum_cons, List.sum_nil, add_zero] at hrestSum
      exact hrestSum
    · -- behind both of them the sum is above `top`
      have hnonneg : 0 ≤ last.sum := List.sum_nonneg fun x hx => hafter x (hlast.subset hx)
      rw [List.sum_cons, List.sum_cons, add_left_comm] at hrestSum
      exact absurd hrestSum (lt_add_of_pos_right a (add_pos_of_pos_of_nonneg hb hnonneg)).ne'

/-- If every order meets `top`, and goes on behind it, then all numbers other than 0 are equal. -/
theorem stepsTo_of_meets {xs : List K} (htop : 0 < top) (hxs : ∀ x ∈ xs, 0 ≤ x) (hmem : top ∉ xs)
    (hsum : top < xs.sum) (hmeets : ∀ ys : List K, ys.Perm xs → Meets top 0 ys) :
    StepsTo top xs := by
  obtain ⟨before, ⟨after, rfl⟩, heq⟩ := (hmeets xs (.refl xs)).resolve_left hmem
  rw [zero_add] at heq
  rw [List.sum_append, heq] at hsum
  have hbefore : ∀ x ∈ before, 0 ≤ x := fun x hx => hxs x (List.mem_append_left _ hx)
  have hafter : ∀ x ∈ after, 0 ≤ x := fun x hx => hxs x (List.mem_append_right _ hx)
  -- one of the numbers on each side of `top` is positive, and these are equal to each other
  have hsame : ∀ a ∈ before, 0 < a → ∀ b ∈ after, 0 < b → b = a := by
    intro a ha hapos b hb hbpos
    have hperm : (before.erase a ++ b :: a :: after.erase b).Perm (before ++ after) := by
      refine .trans ?_ ((List.perm_cons_erase ha).append (List.perm_cons_erase hb)).symm
      refine List.perm_middle.trans (.trans (.cons b List.perm_middle) ?_)
      exact (List.Perm.swap a b _).trans (.cons a List.perm_middle.symm)
    refine eq_of_meets_swap hapos hbpos (fun x hx => hbefore x (List.mem_of_mem_erase hx))
      (fun x hx => hafter x (List.mem_of_mem_erase hx)) ?_ (fun h => hmem (hperm.mem_iff.1 h))
      (hmeets _ hperm)
    rw [← heq, (List.perm_cons_erase ha).sum_eq, List.sum_cons, add_comm]
  obtain ⟨a, ha, hapos⟩ := List.exists_mem_ne_zero_of_sum_ne_zero (heq ▸ htop).ne'
  obtain ⟨b, hb, hbpos⟩ := List.exists_mem_ne_zero_of_sum_ne_zero
    (pos_of_lt_add_right hsum).ne'
  have hbpos := (hafter b hb).lt_of_ne' hbpos
  have hba := hsame a ha ((hbefore a ha).lt_of_ne' hapos) b hb hbpos
  have hsteps : ∀ x ∈ before, x = 0 ∨ x = a := by
    intro x hx
    rcases (hbefore x hx).eq_or_lt with h0 | hpos
    · exact .inl h0.symm
    · exact .inr ((hsame x hx hpos b hb hbpos).symm.trans hba)
  obtain ⟨k, hk⟩ := exists_sum_eq_nsmul hsteps
  refine ⟨a, k, fun x hx => ?_, hk.trans heq⟩
  rcases List.mem_append.1 hx with hx | hx
  · exact hsteps x hx
  · rcases (hafter x hx).eq_or_lt with h0 | hpos
    · exact .inl h0.symm
    · exact .inr (hsame a ha ((hbefore a ha).lt_of_ne' hapos) x hx hpos)

theorem meets_of_stepsTo {xs : List K} (htop : 0 < top) (h : StepsTo top xs)
    (hsum : top ≤ xs.sum) : Meets top 0 xs := by
  obtain ⟨c, k, hxs, rfl⟩ := h
  have hc : 0 < c := not_le.1 fun hle => (nsmul_nonpos hle k).not_gt htop
  obtain ⟨before, hbefore, heq⟩ := exists_prefix_of_steps hc hxs k hsum
  exact .inr ⟨before, hbefore, by rw [zero_add, heq]⟩

omit [LinearOrder K] [IsOrderedCancelAddMonoid K] in
theorem stepsTo_perm {xs ys : List K} (hperm : ys.Perm xs) (h : StepsTo top xs) :
    StepsTo top ys := by
  obtain ⟨c, k, hxs, hk⟩ := h
  exact ⟨c, k, fun x hx => hxs x (hperm.mem_iff.1 hx), hk⟩

/-- Every order gives the same number, which is not above `top`. -/
theorem foldl_perm_iff {xs : List K} (htop : 0 < top) (hxs : ∀ x ∈ xs, 0 ≤ x) :
    (∀ ys : List K, ys.Perm xs → ys.foldl (satAdd top) 0 ≤ top ∧
        ys.foldl (satAdd top) 0 = xs.foldl (satAdd top) 0) ↔
      top ∈ xs ∨ xs.sum ≤ top ∨ StepsTo top xs := by
  constructor
  · intro h
    by_contra hcond
    rw [not_or, not_or, not_le] at hcond
    obtain ⟨hmem, hsum, hsteps⟩ := hcond
    refine hsteps (stepsTo_of_meets htop hxs hmem hsum fun ys hperm => ?_)
    exact (foldl_le_top_iff.1 (h ys hperm).1).resolve_right (hperm.sum_eq ▸ hsum.not_ge)
  · intro hcond ys hperm
    by_cases hmem : top ∈ xs
    · rw [foldl_of_meets (.inl hmem), foldl_of_meets (.inl (hperm.mem_iff.2 hmem))]
      exact ⟨le_rfl, rfl⟩
    have hmem' : top ∉ ys := fun h => hmem (hperm.mem_iff.1 h)
    have hys : ∀ y ∈ ys, 0 ≤ y := fun y hy => hxs y (hperm.mem_iff.1 hy)
    by_cases hsum : xs.sum ≤ top
    · have hsum' : ys.sum ≤ top := hperm.sum_eq.trans_le hsum
      rw [foldl_of_sum_le hxs hmem hsum, foldl_of_sum_le hys hmem' hsum']
      exact ⟨hsum', hperm.sum_eq⟩
    · have hsteps := (hcond.resolve_left hmem).resolve_left hsum
      have hle := (not_le.1 hsum).le
      rw [foldl_of_meets (meets_of_stepsTo htop hsteps hle),
        foldl_of_meets (meets_of_stepsTo htop (stepsTo_perm hperm hsteps) (hperm.sum_eq ▸ hle))]
      exact ⟨le_rfl, rfl⟩

end Order

/-! ## A list of lists -/

/-- The sum of the sums of all lists. -/
def nestedSum (top : K) (xss : List (List K)) : K :=
  xss.foldl (fun total xs => satAdd top total (xs.foldl (satAdd top) 0)) 0

/-- A number, a running total within a list, or a running total over whole lists is `top`. -/
def NestedMeets (top : K) (xss : List (List K)) : Prop :=
  (∃ xs ∈ xss, Meets top 0 xs) ∨ ∃ before, before <+: xss ∧ (before.map List.sum).sum = top

theorem nestedSum_eq (xss : List (List K)) :
    nestedSum top xss = (xss.map fun xs => xs.foldl (satAdd top) 0).foldl (satAdd top) 0 := by
  unfold nestedSum
  rw [List.foldl_map]

theorem map_foldl_eq {xss : List (List K)} (h : ¬ ∃ xs ∈ xss, Meets top 0 xs) :
    (xss.map fun xs => xs.foldl (satAdd top) 0) = xss.map List.sum := by
  refine List.map_congr_left fun xs hxs => ?_
  rw [foldl_eq_sum fun hmeets => h ⟨xs, hxs, hmeets⟩, zero_add]

theorem nestedSum_eq_top_iff {xss : List (List K)} :
    nestedSum top xss = top ↔ NestedMeets top xss := by
  rw [nestedSum_eq, foldl_eq_top_iff]
  unfold NestedMeets
  by_cases hinner : ∃ xs ∈ xss, Meets top 0 xs
  · obtain ⟨xs, hxs, hmeets⟩ := hinner
    exact iff_of_true (.inl (List.mem_map.2 ⟨xs, hxs, foldl_of_meets hmeets⟩))
      (.inl ⟨xs, hxs, hmeets⟩)
  · rw [or_iff_right hinner, map_foldl_eq hinner]
    unfold Meets
    constructor
    · rintro (hmem | ⟨before, hbefore, hsum⟩)
      · obtain ⟨xs, hxs, hsum⟩ := List.mem_map.1 hmem
        exact absurd ⟨xs, hxs, .inr ⟨xs, List.prefix_rfl, by rw [zero_add, hsum]⟩⟩ hinner
      · obtain ⟨lists, hlists, rfl⟩ := List.prefix_map_iff.1 hbefore
        exact ⟨lists, hlists, by rwa [zero_add] at hsum⟩
    · rintro ⟨before, hbefore, hsum⟩
      exact .inr ⟨before.map List.sum, hbefore.map _, by rw [zero_add, hsum]⟩

theorem nestedSum_eq_sum {xss : List (List K)} (h : ¬ NestedMeets top xss) :
    nestedSum top xss = (xss.map List.sum).sum := by
  have hinner : ¬ ∃ xs ∈ xss, Meets top 0 xs := fun hinner => h (.inl hinner)
  have hmeets : ¬ Meets top 0 (xss.map fun xs => xs.foldl (satAdd top) 0) := by
    rw [← foldl_eq_top_iff, ← nestedSum_eq, nestedSum_eq_top_iff]
    exact h
  rw [nestedSum_eq, foldl_eq_sum hmeets, map_foldl_eq hinner, zero_add]

/-- Two such sums are equal if both stick, or if none does and the ordinary sums are equal. -/
theorem nestedSum_eq_nestedSum_iff {xss yss : List (List K)} :
    nestedSum top xss = nestedSum top yss ↔
      (NestedMeets top xss ∧ NestedMeets top yss) ∨
      (¬ NestedMeets top xss ∧ ¬ NestedMeets top yss ∧
        (xss.map List.sum).sum = (yss.map List.sum).sum) := by
  by_cases hx : NestedMeets top xss
  · rw [nestedSum_eq_top_iff.2 hx, eq_comm, nestedSum_eq_top_iff]
    simp [hx]
  · by_cases hy : NestedMeets top yss
    · rw [nestedSum_eq_top_iff.2 hy, nestedSum_eq_top_iff]
      simp [hx, hy]
    · rw [nestedSum_eq_sum hx, nestedSum_eq_sum hy]
      simp [hx, hy]

end Saturation
