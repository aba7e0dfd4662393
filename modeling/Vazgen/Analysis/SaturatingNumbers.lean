import Vazgen.Analysis.Numbers
import Vazgen.Lib.MachineInt
import Mathlib.Algebra.Order.Ring.Rat
import Mathlib.Data.Sign.Defs
import Mathlib.Order.Interval.Set.Defs

/-!
# How far sums and products saturate

Sums and products should stick at the two infinities.  The tests for an overflow were written for
infinities at the limits of the type; these are now 100000 and -100000, ordinary numbers that the tests
do not see, so a total can pass them, and what comes out depends on whether one of the running totals is
exactly `POS_INFINITY`.

**`orderIndependent_iff`**: when a sum is in range and the same in every order.
**`isClampedProduct_iff`**: when a product is the clamped one.
-/

namespace Vazgen

namespace NumberType

/-! ## Sums in any order -/

section Sum

variable {R : Type} [Ring R] [LinearOrder R]

/-- `operator +=` from 0 on: in range, and the same in every order. -/
def OrderIndependent (xs : List R) : Prop :=
  ∀ ys : List R, ys.Perm xs →
    ys.foldl safeSum 0 ∈ Set.Icc 0 posInf ∧ ys.foldl safeSum 0 = xs.foldl safeSum 0

theorem orderIndependent_exact_iff [IsStrictOrderedRing R] {xs : List R} (hxs : ∀ x ∈ xs, 0 ≤ x) :
    OrderIndependent xs ↔
      posInf ∈ xs ∨ xs.sum ≤ posInf ∨ Saturation.StepsTo posInf xs := by
  rw [← Saturation.foldl_perm_iff posInf_pos hxs]
  unfold OrderIndependent
  refine forall₂_congr fun ys hperm => ?_
  obtain ⟨hys, hnonneg⟩ := foldl_safeSum (fun y hy => hxs y (hperm.mem_iff.1 hy)) (le_refl (0 : R))
  rw [Set.mem_Icc, and_iff_right hnonneg, hys, (foldl_safeSum hxs (le_refl (0 : R))).1]

end Sum

/-! ## Machine integers -/

theorem toInt_posInf : (posInf : Int32).toInt = posInf := by
  decide

theorem toInt_eq_posInf {i : Int32} : i.toInt = posInf ↔ i = posInf := by
  rw [← toInt_posInf, Int32.toInt_inj]

/-- A sum that wraps around is negative, which the test for an overflow finds. -/
theorem toInt_safeSum {i1 i2 : Int32} (h1 : 0 ≤ i1) (h2 : 0 ≤ i2) :
    (safeSum i1 i2).toInt = if i1.toInt + i2.toInt < 2 ^ 31 then
      Saturation.satAdd posInf i1.toInt i2.toInt else posInf := by
  have hneg : ∀ i : Int32, 0 ≤ i → ¬ isNegInfinity i := by
    rintro i hi rfl
    exact absurd hi (by decide)
  have hsum := MachineInt.toInt_add_of_nonneg h1 h2
  have hover : i1 + i2 < i1 ↔ ¬ i1.toInt + i2.toInt < 2 ^ 31 := by
    have hpos2 := MachineInt.toInt_nonneg h2
    have hlt2 := i2.toInt_lt
    rw [Int32.lt_iff_toInt_lt, hsum]
    split <;> omega
  have hzero : ¬ (0 < i1 ∧ 0 < i2) → i1.toInt + i2.toInt < 2 ^ 31 := by
    intro h
    have hlt1 := i1.toInt_lt
    have hlt2 := i2.toInt_lt
    have h0 : (0 : Int32).toInt = 0 := rfl
    rw [Int32.lt_iff_toInt_lt, Int32.lt_iff_toInt_lt, h0] at h
    omega
  unfold safeSum Saturation.satAdd
  simp only [h1, h2, hneg i1 h1, hneg i2 h2, and_true, and_false, false_and, or_self, if_false,
    not_lt.2 h1, isPosInfinity, toInt_eq_posInf, hover]
  by_cases hinf : i1 = posInf ∨ i2 = posInf
  · rw [if_pos hinf, if_pos hinf, ite_self, toInt_posInf]
  · rw [if_neg hinf, if_neg hinf]
    by_cases hlt : i1.toInt + i2.toInt < 2 ^ 31
    · rw [if_pos hlt, if_neg (not_not.2 hlt), ite_self, hsum, if_pos hlt]
    · rw [if_neg hlt, if_pos hlt, if_pos (not_not.1 fun h => hlt (hzero h)), toInt_posInf]

theorem safeSum_nonneg {i1 i2 : Int32} (h1 : 0 ≤ i1) (h2 : 0 ≤ i2) : 0 ≤ safeSum i1 i2 := by
  refine Int32.le_iff_toInt_le.2 ?_
  rw [toInt_safeSum h1 h2]
  split
  · exact satAdd_nonneg (MachineInt.toInt_nonneg h1) (MachineInt.toInt_nonneg h2)
  · exact posInf_pos.le

theorem foldl_nonneg {xs : List Int32} (hxs : ∀ x ∈ xs, 0 ≤ x) {i : Int32} (hi : 0 ≤ i) :
    0 ≤ xs.foldl safeSum i := by
  induction xs generalizing i with
  | nil => exact hi
  | cons x xs ih =>
    obtain ⟨hx, htail⟩ := List.forall_mem_cons.1 hxs
    exact ih htail (safeSum_nonneg hi hx)

/-- Once the total has wrapped around, the sum stays at the infinity. -/
theorem toInt_foldl_safeSum {xs : List Int32} (hxs : ∀ x ∈ xs, 0 ≤ x) {i : Int32} (hi : 0 ≤ i) :
    (xs.foldl safeSum i).toInt = if i.toInt + (xs.map Int32.toInt).sum < 2 ^ 31 then
      (xs.map Int32.toInt).foldl (Saturation.satAdd posInf) i.toInt else posInf := by
  induction xs generalizing i with
  | nil =>
    rw [List.map_nil, List.sum_nil, add_zero, if_pos i.toInt_lt]
    rfl
  | cons x xs ih =>
    obtain ⟨hx, htail⟩ := List.forall_mem_cons.1 hxs
    have hrest := MachineInt.sum_map_toInt_nonneg htail
    rw [List.foldl_cons, ih htail (safeSum_nonneg hi hx), toInt_safeSum hi hx, List.map_cons,
      List.sum_cons, List.foldl_cons, ← add_assoc]
    by_cases hlt : i.toInt + x.toInt < 2 ^ 31
    · rw [if_pos hlt, Saturation.satAdd]
      split
      · rw [Saturation.foldl_top, ite_self, ite_self]
      · rfl
    · rw [if_neg hlt, if_neg (show ¬ i.toInt + x.toInt + _ < 2 ^ 31 by omega),
        Saturation.foldl_top, ite_self]

/-- The sums of machine integers in terms of their exact sum. -/
theorem orderIndependent_int32_iff {xs : List Int32} (hxs : ∀ x ∈ xs, 0 ≤ x) :
    OrderIndependent xs ↔
      posInf ∈ xs ∨ (xs.map Int32.toInt).sum ≤ posInf ∨
        Saturation.StepsTo posInf (xs.map Int32.toInt) ∨ 2 ^ 31 ≤ (xs.map Int32.toInt).sum := by
  have hfold : ∀ ys : List Int32, ys.Perm xs → (ys.foldl safeSum 0).toInt =
      if (xs.map Int32.toInt).sum < 2 ^ 31 then
        (ys.map Int32.toInt).foldl (Saturation.satAdd posInf) 0 else posInf := by
    intro ys hperm
    have hsum := (hperm.map Int32.toInt).sum_eq
    have hrun := toInt_foldl_safeSum (fun y hy => hxs y (hperm.mem_iff.1 hy)) (le_refl (0 : Int32))
    have h0 : (0 : Int32).toInt = 0 := rfl
    rwa [h0, zero_add, hsum] at hrun
  have hnonneg : ∀ ys : List Int32, ys.Perm xs → 0 ≤ ys.foldl safeSum 0 := fun ys hperm =>
    foldl_nonneg (fun y hy => hxs y (hperm.mem_iff.1 hy)) le_rfl
  have hmem : (posInf : Int) ∈ xs.map Int32.toInt ↔ posInf ∈ xs := by
    simp only [List.mem_map, toInt_eq_posInf, exists_eq_right]
  unfold OrderIndependent
  by_cases hlt : (xs.map Int32.toInt).sum < 2 ^ 31
  · have hints := Saturation.foldl_perm_iff (posInf_pos (R := Int))
      (List.forall_mem_map.2 fun x hx => MachineInt.toInt_nonneg (hxs x hx))
    rw [or_iff_left (not_le.2 hlt), ← hmem, ← hints]
    have hstep : ∀ ys : List Int32, ys.Perm xs →
        (ys.foldl safeSum 0 ∈ Set.Icc 0 posInf ∧ ys.foldl safeSum 0 = xs.foldl safeSum 0 ↔
          (ys.map Int32.toInt).foldl (Saturation.satAdd posInf) 0 ≤ posInf ∧
            (ys.map Int32.toInt).foldl (Saturation.satAdd posInf) 0 =
              (xs.map Int32.toInt).foldl (Saturation.satAdd posInf) 0) := by
      intro ys hperm
      rw [Set.mem_Icc, and_iff_right (hnonneg ys hperm), Int32.le_iff_toInt_le, ← Int32.toInt_inj,
        hfold ys hperm, hfold xs (.refl xs), if_pos hlt, if_pos hlt, toInt_posInf]
    constructor
    · intro h zs hzs
      obtain ⟨ys, rfl, hys⟩ : Relation.Comp (fun l l' => l = l'.map Int32.toInt) List.Perm zs xs := by
        rw [List.eq_map_comp_perm]
        exact hzs
      exact (hstep ys hys).1 (h ys hys)
    · exact fun h ys hys => (hstep ys hys).2 (h _ (hys.map _))
  · refine iff_of_true (fun ys hperm => ?_) (.inr (.inr (.inr (not_lt.1 hlt))))
    have hinf : ∀ ys : List Int32, ys.Perm xs → ys.foldl safeSum 0 = posInf := fun ys hperm =>
      toInt_eq_posInf.1 ((hfold ys hperm).trans (if_neg hlt))
    rw [hinf ys hperm, hinf xs (.refl xs)]
    exact ⟨by decide, rfl⟩

/-- **When sums are in range and do not depend on the order**, for `NumberType<int>` and for the exact
numbers of `NumberType<double>`. -/
theorem orderIndependent_iff (xs : List Int32) (qs : List ℚ)
    (hxs : ∀ x ∈ xs, x ∈ Set.Icc 0 posInf) (hqs : ∀ q ∈ qs, q ∈ Set.Icc 0 posInf) :
    (OrderIndependent xs ↔
      posInf ∈ xs ∨ (xs.map Int32.toInt).sum ≤ posInf ∨
        Saturation.StepsTo posInf (xs.map Int32.toInt) ∨ 2 ^ 31 ≤ (xs.map Int32.toInt).sum) ∧
    (OrderIndependent qs ↔
      posInf ∈ qs ∨ qs.sum ≤ posInf ∨ Saturation.StepsTo posInf qs) :=
  ⟨orderIndependent_int32_iff fun x hx => (hxs x hx).1,
    orderIndependent_exact_iff fun q hq => (hqs q hq).1⟩

/-- Equal steps of 50000 meet the infinity in every order, here three of them. -/
theorem orderIndependent_steps :
    OrderIndependent ([50000, 0, 50000, 50000] : List Int32) ∧
      OrderIndependent ([50000, 0, 50000, 50000] : List ℚ) := by
  have hrange : ∀ x ∈ ([50000, 0, 50000, 50000] : List Int32), x ∈ Set.Icc 0 posInf := by
    intro x hx
    simp only [List.mem_cons, List.not_mem_nil, or_false] at hx
    rcases hx with rfl | rfl | rfl | rfl <;> decide
  obtain ⟨hint, hrat⟩ := orderIndependent_iff _ [50000, 0, 50000, 50000] hrange (by decide)
  refine ⟨hint.2 (.inr (.inr (.inl ⟨50000, 2, by decide, by decide⟩))),
    hrat.2 (.inr (.inr ⟨50000, 2, by decide, ?_⟩))⟩
  rw [posInf_eq]
  norm_num

/-- Two numbers pass the infinity, and three do or do not. -/
theorem sum_passes_infinity :
    ([60000, 60000] : List Int32).foldl safeSum 0 = 120000 ∧
      ([60000, 40000, 1] : List Int32).foldl safeSum 0 = 100000 ∧
      ([60000, 1, 40000] : List Int32).foldl safeSum 0 = 100001 ∧
      ¬ OrderIndependent ([60000, 40000, 1] : List Int32) ∧
      ¬ OrderIndependent ([60000, 40000, 1] : List ℚ) := by
  refine ⟨by decide, by decide, by decide, fun h => ?_, fun h => ?_⟩
  · exact absurd (h [60000, 1, 40000] (by decide)).1 (by decide)
  · exact absurd (h [60000, 1, 40000] (by decide)).1 (by decide +kernel)

/-! ## Products -/

section Product

variable {R : Type} [CommRing R] [LinearOrder R]

/-- The nearest number in range. -/
def clamp (x : R) : R := max negInf (min posInf x)

omit [LinearOrder R] in
theorem negInf_eq : (negInf : R) = -posInf := by
  unfold negInf posInf
  rw [Int.cast_neg]

theorem clamp_of_mem {x : R} (hl : negInf ≤ x) (hr : x ≤ posInf) : clamp x = x := by
  unfold clamp
  rw [min_eq_right hr, max_eq_right hl]

variable [IsStrictOrderedRing R] {a b x : R}

theorem negInf_lt_posInf : (negInf : R) < posInf := negInf_neg.trans posInf_pos

theorem one_lt_posInf : (1 : R) < posInf := by
  rw [posInf_eq]
  norm_num

theorem clamp_eq_posInf_iff : posInf = clamp x ↔ posInf ≤ x := by
  unfold clamp
  rw [eq_comm, max_eq_iff, min_eq_left_iff]
  constructor
  · rintro (⟨h, -⟩ | ⟨h, -⟩)
    · exact absurd h negInf_lt_posInf.ne
    · exact h
  · intro h
    refine .inr ⟨h, ?_⟩
    rw [min_eq_left h]
    exact negInf_lt_posInf.le

theorem clamp_eq_negInf_iff : negInf = clamp x ↔ x ≤ negInf := by
  unfold clamp
  rw [eq_comm, max_eq_left_iff, min_le_iff, or_iff_right negInf_lt_posInf.not_ge]

theorem ne_infs (hx : |x| < posInf) : x ≠ posInf ∧ x ≠ negInf := by
  rw [abs_lt, ← negInf_eq] at hx
  exact ⟨hx.2.ne, hx.1.ne'⟩

/-! ### What each branch returns -/

omit [IsStrictOrderedRing R] in
theorem safeMult_zero (h : a = 0 ∨ b = 0) : safeMult a b = 0 :=
  if_pos h

theorem safeMult_posInf_left (hb : b ≠ 0) (hb' : b ≠ negInf) :
    safeMult posInf b = if 0 < b then posInf else negInf := by
  unfold safeMult isPosInfinity isNegInfinity
  rw [if_neg (not_or.2 ⟨posInf_pos.ne', hb⟩), if_pos (.inl ⟨rfl, hb'⟩)]

theorem safeMult_posInf_right (ha : a ≠ 0) (ha' : a ≠ negInf) : safeMult a posInf = posInf := by
  unfold safeMult isPosInfinity isNegInfinity
  rw [if_neg (not_or.2 ⟨ha, posInf_pos.ne'⟩), if_pos (.inr ⟨rfl, ha'⟩), if_pos posInf_pos]

theorem safeMult_infs (h : a = posInf ∧ b = negInf ∨ b = posInf ∧ a = negInf) :
    safeMult a b = negInf := by
  have h0 : ¬ (a = 0 ∨ b = 0) := by
    rcases h with ⟨rfl, rfl⟩ | ⟨rfl, rfl⟩
    · exact not_or.2 ⟨posInf_pos.ne', negInf_neg.ne⟩
    · exact not_or.2 ⟨negInf_neg.ne, posInf_pos.ne'⟩
  have hinf : ¬ (a = posInf ∧ ¬ b = negInf ∨ b = posInf ∧ ¬ a = negInf) := by
    rcases h with ⟨rfl, rfl⟩ | ⟨rfl, rfl⟩
    · simp [negInf_lt_posInf.ne]
    · simp [negInf_lt_posInf.ne]
  unfold safeMult isPosInfinity isNegInfinity
  rw [if_neg h0, if_neg hinf, if_pos h]

theorem safeMult_negInf_left (hb : b ≠ 0) (hb' : b ≠ posInf) : safeMult negInf b = negInf := by
  unfold safeMult isPosInfinity isNegInfinity
  simp [negInf_neg.ne, hb, hb', negInf_lt_posInf.ne, negInf_neg.not_gt]

theorem safeMult_negInf_right (ha : a ≠ 0) (ha' : a ≠ posInf) :
    safeMult a negInf = if 0 < a then posInf else negInf := by
  unfold safeMult isPosInfinity isNegInfinity
  simp [negInf_neg.ne, ha, ha', negInf_lt_posInf.ne]

/-- Between the infinities the sign is lost, and a product by less than 1 counts as an overflow. -/
theorem safeMult_of_abs_lt (ha : a ≠ 0) (hb : b ≠ 0) (ha' : |a| < posInf) (hb' : |b| < posInf) :
    safeMult a b =
      if |b| < 1 then if a < 0 ∨ b < 0 then negInf else posInf else |a * b| := by
  have hover : |a * b| < |a| ↔ |b| < 1 := by
    rw [abs_mul, mul_lt_iff_lt_one_right (abs_pos.2 ha)]
  unfold safeMult isPosInfinity isNegInfinity
  simp only [ha, hb, ne_infs ha', ne_infs hb', or_self, false_and, if_false, hover]

/-! ### When it is the clamped product -/

theorem le_posInf_mul_iff : (posInf : R) ≤ posInf * b ↔ 1 ≤ b := by
  rw [le_mul_iff_one_le_right posInf_pos]

theorem posInf_mul_le_iff : posInf * b ≤ (negInf : R) ↔ b ≤ -1 := by
  rw [negInf_eq, ← mul_neg_one, mul_le_mul_iff_right₀ posInf_pos]

theorem posInf_left_iff (hb : b ≠ 0) :
    safeMult posInf b = clamp (posInf * b) ↔ 1 ≤ |b| := by
  by_cases hneg : b = negInf
  · subst hneg
    rw [safeMult_infs (.inl ⟨rfl, rfl⟩), clamp_eq_negInf_iff, posInf_mul_le_iff, abs_of_neg negInf_neg,
      le_neg]
  · rw [safeMult_posInf_left hb hneg]
    split
    · next hpos => rw [clamp_eq_posInf_iff, le_posInf_mul_iff, abs_of_pos hpos]
    · next hpos =>
      rw [clamp_eq_negInf_iff, posInf_mul_le_iff, abs_of_nonpos (not_lt.1 hpos), le_neg]

theorem posInf_right_iff (ha : a ≠ 0) :
    safeMult a posInf = clamp (a * posInf) ↔ 1 ≤ a ∨ a = negInf := by
  by_cases hneg : a = negInf
  · subst hneg
    refine iff_of_true ?_ (.inr rfl)
    rw [safeMult_infs (.inr ⟨rfl, rfl⟩), clamp_eq_negInf_iff, mul_comm, posInf_mul_le_iff, le_neg,
      negInf_eq, neg_neg]
    exact one_lt_posInf.le
  · rw [safeMult_posInf_right ha hneg, clamp_eq_posInf_iff, mul_comm, le_posInf_mul_iff,
      or_iff_left hneg]

theorem negInf_left_iff (hb : b ≠ 0) : safeMult negInf b = clamp (negInf * b) ↔ 1 ≤ b := by
  have hmult : safeMult negInf b = negInf := by
    by_cases hpos : b = posInf
    · exact safeMult_infs (.inr ⟨hpos, rfl⟩)
    · exact safeMult_negInf_left hb hpos
  rw [hmult, clamp_eq_negInf_iff, negInf_eq, neg_mul, neg_le_neg_iff, le_posInf_mul_iff]

/-- A negative infinity on the right gives the sign of the left. -/
theorem negInf_right_iff (ha : a ≠ 0) :
    safeMult a negInf = clamp (a * negInf) ↔ a = posInf := by
  by_cases hpos : a = posInf
  · subst hpos
    refine iff_of_true ((posInf_left_iff negInf_neg.ne).2 ?_) rfl
    rw [abs_of_neg negInf_neg, negInf_eq, neg_neg]
    exact one_lt_posInf.le
  · refine iff_of_false ?_ hpos
    rw [safeMult_negInf_right ha hpos]
    split
    · next ha0 =>
      rw [clamp_eq_posInf_iff, not_le]
      exact (mul_neg_of_pos_of_neg ha0 negInf_neg).trans posInf_pos
    · next ha0 =>
      rw [clamp_eq_negInf_iff, not_le]
      exact negInf_neg.trans (mul_pos_of_neg_of_neg ((not_lt.1 ha0).lt_of_ne ha) negInf_neg)

theorem abs_lt_iff_of_abs_lt (ha : a ≠ 0) (hb : b ≠ 0) (ha' : |a| < posInf) (hb' : |b| < posInf) :
    safeMult a b = clamp (a * b) ↔ 1 ≤ |b| ∧ 0 < a * b ∧ a * b ≤ posInf := by
  have hab : a * b ≠ 0 := mul_ne_zero ha hb
  rw [safeMult_of_abs_lt ha hb ha' hb']
  by_cases hlt : |b| < 1
  · refine iff_of_false ?_ fun h => h.1.not_gt hlt
    -- the product is between the infinities as well
    have hprod : |a * b| < posInf := by
      rw [abs_mul]
      exact (mul_lt_of_lt_one_right (abs_pos.2 ha) hlt).trans ha'
    rw [abs_lt, ← negInf_eq] at hprod
    rw [if_pos hlt, clamp_of_mem hprod.1.le hprod.2.le]
    split
    · exact hprod.1.ne
    · exact hprod.2.ne'
  · rw [if_neg hlt, and_iff_right (not_lt.1 hlt)]
    rcases hab.lt_or_gt with hneg | hpos
    · refine iff_of_false ?_ fun h => h.1.not_gt hneg
      have hle : clamp (a * b) ≤ 0 :=
        max_le negInf_neg.le ((min_le_right _ _).trans hneg.le)
      exact fun h => (abs_pos.2 hab).not_ge (h.trans_le hle)
    · rw [abs_of_pos hpos, and_iff_right hpos]
      constructor
      · intro h
        rw [h]
        exact max_le negInf_lt_posInf.le (min_le_left _ _)
      · exact fun h => (clamp_of_mem (negInf_neg.trans hpos).le h).symm

/-- The product is the clamped one, in either order, with the sign of the product, and exact below the
infinity. -/
structure IsClampedProduct (a b : R) : Prop where
  eq_clamp : safeMult a b = clamp (a * b)
  comm : safeMult a b = safeMult b a
  sign : SignType.sign (safeMult a b) = SignType.sign (a * b)
  exact : |a * b| < posInf → safeMult a b = a * b

theorem sign_clamp (x : R) : SignType.sign (clamp x) = SignType.sign x := by
  rcases lt_trichotomy x 0 with hneg | rfl | hpos
  · have hclamp : clamp x < 0 := max_lt negInf_neg (min_lt_of_right_lt hneg)
    rw [sign_neg hneg, sign_neg hclamp]
  · rw [clamp_of_mem negInf_neg.le posInf_pos.le]
  · have hclamp : 0 < clamp x := lt_max_of_lt_right (lt_min posInf_pos hpos)
    rw [sign_pos hpos, sign_pos hclamp]

/-- The clamped product in both orders is all of it. -/
theorem isClampedProduct_iff_eq :
    IsClampedProduct a b ↔
      safeMult a b = clamp (a * b) ∧ safeMult b a = clamp (b * a) := by
  constructor
  · intro h
    exact ⟨h.eq_clamp, by rw [← h.comm, h.eq_clamp, mul_comm]⟩
  · rintro ⟨hab, hba⟩
    refine ⟨hab, by rw [hab, hba, mul_comm], by rw [hab, sign_clamp], fun hlt => ?_⟩
    rw [abs_lt, ← negInf_eq] at hlt
    rw [hab, clamp_of_mem hlt.1.le hlt.2.le]

theorem eq_or_abs_lt (ha : a ∈ Set.Icc negInf posInf) : a = negInf ∨ a = posInf ∨ |a| < posInf := by
  rcases ha.1.eq_or_lt' with h | hl
  · exact .inl h
  rcases ha.2.eq_or_lt with h | hr
  · exact .inr (.inl h)
  · exact .inr (.inr (abs_lt.2 ⟨negInf_eq (R := R) ▸ hl, hr⟩))

/-- **When a product is the clamped one**: by the branch that each of the two orders takes. -/
theorem isClampedProduct_iff (ha : a ∈ Set.Icc negInf posInf) (hb : b ∈ Set.Icc negInf posInf) :
    IsClampedProduct a b ↔
      a = 0 ∨ b = 0 ∨ (a = posInf ∧ (1 ≤ b ∨ b = negInf)) ∨ (b = posInf ∧ (1 ≤ a ∨ a = negInf)) ∨
        (|a| < posInf ∧ |b| < posInf ∧ 1 ≤ |a| ∧ 1 ≤ |b| ∧ 0 < a * b ∧ a * b ≤ posInf) := by
  rw [isClampedProduct_iff_eq]
  by_cases h0 : a = 0 ∨ b = 0
  · refine iff_of_true ?_ (h0.imp_right .inl)
    have hzero : a * b = 0 := mul_eq_zero.2 h0
    rw [mul_comm b a, hzero, safeMult_zero h0, safeMult_zero h0.symm,
      clamp_of_mem negInf_neg.le posInf_pos.le]
    exact ⟨rfl, rfl⟩
  rw [← or_assoc, or_iff_right h0]
  obtain ⟨ha0, hb0⟩ := not_or.1 h0
  have habs : |(negInf : R)| = posInf := by
    rw [abs_of_neg negInf_neg, negInf_eq, neg_neg]
  have habs' : |(posInf : R)| = posInf := abs_of_pos posInf_pos
  have hne : (negInf : R) ≠ posInf := negInf_lt_posInf.ne
  rcases eq_or_abs_lt ha with rfl | rfl | ha'
  · rw [negInf_left_iff hb0, negInf_right_iff hb0]
    simp only [hne, habs, lt_irrefl, false_and, or_true, and_true, or_false, false_or,
      and_iff_right_iff_imp]
    rintro rfl
    exact one_lt_posInf.le
  · rw [posInf_left_iff hb0, posInf_right_iff hb0]
    simp only [habs', lt_irrefl, false_and, one_lt_posInf.le, true_or, and_true, true_and, or_false]
    constructor
    · rintro ⟨-, h⟩
      exact .inl h
    · intro h
      have hcases : 1 ≤ b ∨ b = negInf := h.elim id fun hpos => .inl (hpos ▸ one_lt_posInf.le)
      refine ⟨?_, hcases⟩
      rcases hcases with h | rfl
      · exact h.trans (le_abs_self b)
      · rw [habs]
        exact one_lt_posInf.le
  rcases eq_or_abs_lt hb with rfl | rfl | hb'
  · rw [negInf_left_iff ha0, negInf_right_iff ha0]
    simp only [ne_infs ha', hne, habs, lt_irrefl, false_and, and_false, or_self]
  · rw [posInf_left_iff ha0, posInf_right_iff ha0]
    simp only [ne_infs ha', habs', lt_irrefl, false_and, and_false, or_false, false_or, true_and,
      and_iff_left_iff_imp]
    exact fun h => h.trans (le_abs_self a)
  · rw [abs_lt_iff_of_abs_lt ha0 hb0 ha' hb', abs_lt_iff_of_abs_lt hb0 ha0 hb' ha', mul_comm b a]
    simp only [ne_infs ha', ne_infs hb', ha', hb', false_and, false_or, true_and]
    tauto

/-- Two factors above 1 in absolute value, and a fraction with an infinity. -/
theorem isClampedProduct_examples :
    IsClampedProduct (-3 : Int) (-4) ∧ IsClampedProduct (3 / 2 : ℚ) posInf :=
  ⟨(isClampedProduct_iff (by decide) (by decide)).2 (by decide),
    (isClampedProduct_iff (by decide +kernel) (by decide +kernel)).2 (by decide +kernel)⟩

/-- A sign that is lost, a small product that becomes infinite, and a large one that does not. -/
theorem product_not_clamped :
    safeMult (-2 : Int) 3 = 6 ∧ safeMult (1 / 2 : ℚ) (1 / 2) = 100000 ∧
      safeMult (400 : Int) 400 = 160000 ∧ safeMult (-2 : Int) posInf ≠ safeMult posInf (-2) ∧
      ¬ IsClampedProduct (-2 : Int) 3 ∧ ¬ IsClampedProduct (1 / 2 : ℚ) (1 / 2) := by
  refine ⟨by decide, by decide +kernel, by decide, by decide, fun h => ?_, fun h => ?_⟩
  · exact absurd h.eq_clamp (by decide)
  · exact absurd h.eq_clamp (by decide +kernel)

end Product

end NumberType

end Vazgen
