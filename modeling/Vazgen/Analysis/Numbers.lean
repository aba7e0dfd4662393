import Vazgen.Lib.Saturation
import Mathlib.Algebra.Order.Ring.Abs
import Mathlib.Tactic.NormNum

/-!
# Numbers with infinities

`NumberType` marks two of its values as infinite, and its sums and products look for them first.  The
numbers are those of a ring `R` with an order, exact ones or the machine's.
-/

namespace Vazgen

/-- `Double::POS_INFINITY` -/
def posInfinity : Nat := 100000

namespace NumberType

variable {R : Type} [Ring R] [LinearOrder R]

/-- `POS_INFINITY` -/
def posInf : R := ((posInfinity : Int) : R)

/-- `NEG_INFINITY` -/
def negInf : R := ((-posInfinity : Int) : R)

def isPosInfinity (i : R) : Prop := i = posInf

def isNegInfinity (i : R) : Prop := i = negInf

instance (i : R) : Decidable (isPosInfinity i) := inferInstanceAs (Decidable (i = posInf))

instance (i : R) : Decidable (isNegInfinity i) := inferInstanceAs (Decidable (i = negInf))

/-- `safe_sum` -/
def safeSum (i1 i2 : R) : R :=
  if isPosInfinity i1 ∧ 0 ≤ i2 ∨ isPosInfinity i2 ∧ 0 ≤ i1 then posInf
  else if isPosInfinity i1 ∧ isNegInfinity i2 ∨ isPosInfinity i2 ∧ isNegInfinity i1 then 0
  else if isNegInfinity i1 ∧ i2 ≤ 0 ∨ isNegInfinity i2 ∧ i1 ≤ 0 then negInf
  else
    let sum := i1 + i2
    if i1 < 0 ∧ i2 < 0 then
      if i1 < sum then negInf else sum -- underflow
    else if 0 < i1 ∧ 0 < i2 then
      if sum < i1 then posInf else sum -- overflow
    else sum

/-- `safe_mult`; what is below `i1` in absolute value counts as an overflow. -/
def safeMult (i1 i2 : R) : R :=
  if i1 = 0 ∨ i2 = 0 then 0
  else if isPosInfinity i1 ∧ ¬ isNegInfinity i2 ∨ isPosInfinity i2 ∧ ¬ isNegInfinity i1 then
    if 0 < i2 then posInf else negInf
  else if isPosInfinity i1 ∧ isNegInfinity i2 ∨ isPosInfinity i2 ∧ isNegInfinity i1 then negInf
  else if isNegInfinity i1 ∧ ¬ isPosInfinity i2 ∨ isNegInfinity i2 ∧ ¬ isPosInfinity i1 then
    if 0 < i1 then posInf else negInf
  else
    let mult := |i1 * i2|
    if mult < |i1| then
      if i1 < 0 ∨ i2 < 0 then negInf else posInf
    else mult

variable [IsStrictOrderedRing R] {i1 i2 : R}

omit [LinearOrder R] [IsStrictOrderedRing R] in
theorem posInf_eq : (posInf : R) = 100000 := by
  unfold posInf posInfinity
  norm_num

theorem posInf_pos : (0 : R) < posInf := by
  rw [posInf_eq]
  norm_num

theorem negInf_neg : (negInf : R) < 0 := by
  unfold negInf posInfinity
  norm_num

theorem not_isNegInfinity (h : 0 ≤ i1) : ¬ isNegInfinity i1 :=
  fun hneg => (negInf_neg.trans_le h).ne hneg.symm

/-- Sums of nonnegative numbers stick at the infinity. -/
theorem safeSum_of_nonneg (h1 : 0 ≤ i1) (h2 : 0 ≤ i2) :
    safeSum i1 i2 = Saturation.satAdd posInf i1 i2 := by
  have hn1 := not_isNegInfinity h1
  have hn2 := not_isNegInfinity h2
  have hsum : ¬ i1 + i2 < i1 := not_lt.2 (le_add_of_nonneg_right h2)
  unfold safeSum Saturation.satAdd
  simp only [h1, h2, hn1, hn2, and_true, and_false, false_and, or_self, if_false, not_lt.2 h1, hsum,
    ite_self]
  rfl

theorem satAdd_nonneg (h1 : 0 ≤ i1) (h2 : 0 ≤ i2) : 0 ≤ Saturation.satAdd posInf i1 i2 := by
  unfold Saturation.satAdd
  split
  · exact posInf_pos.le
  · exact add_nonneg h1 h2

theorem foldl_safeSum {xs : List R} (hxs : ∀ x ∈ xs, 0 ≤ x) (h1 : 0 ≤ i1) :
    xs.foldl safeSum i1 = xs.foldl (Saturation.satAdd posInf) i1 ∧ 0 ≤ xs.foldl safeSum i1 := by
  induction xs generalizing i1 with
  | nil => exact ⟨rfl, h1⟩
  | cons x xs ih =>
    obtain ⟨hx, hxs⟩ := List.forall_mem_cons.1 hxs
    rw [List.foldl_cons, List.foldl_cons, safeSum_of_nonneg h1 hx]
    exact ih hxs (satAdd_nonneg h1 hx)

/-- Sums of sums of nonnegative numbers. -/
theorem foldl_foldl_safeSum {xss : List (List R)} (hxss : ∀ xs ∈ xss, ∀ x ∈ xs, 0 ≤ x) :
    xss.foldl (fun total xs => safeSum total (xs.foldl safeSum 0)) 0 =
      Saturation.nestedSum posInf xss := by
  have hinner : ∀ xs ∈ xss, xs.foldl safeSum 0 = xs.foldl (Saturation.satAdd posInf) 0 ∧
      0 ≤ xs.foldl safeSum 0 := fun xs hxs => foldl_safeSum (hxss xs hxs) le_rfl
  have houter : xss.foldl (fun total xs => safeSum total (xs.foldl safeSum 0)) 0 =
      (xss.map fun xs => xs.foldl safeSum 0).foldl safeSum 0 := by
    rw [List.foldl_map]
  rw [houter, (foldl_safeSum (List.forall_mem_map.2 fun xs hxs => (hinner xs hxs).2) le_rfl).1,
    Saturation.nestedSum_eq, List.map_congr_left fun xs hxs => (hinner xs hxs).1]

/-- A number up to 1 times one from 1 on below infinity. -/
theorem safeMult_of_le_one (h1 : 0 ≤ i1) (hle : i1 ≤ 1) (h2 : 1 ≤ i2) (hlt : i2 < posInf) :
    safeMult i1 i2 = i1 * i2 := by
  have hpos2 : 0 < i2 := zero_lt_one.trans_le h2
  have hinf1 : ¬ isPosInfinity i1 := (hle.trans_lt (h2.trans_lt hlt)).ne
  have hinf2 : ¬ isPosInfinity i2 := hlt.ne
  unfold safeMult
  rcases h1.eq_or_lt with rfl | hpos1
  · simp
  · have hmult : ¬ i1 * i2 < i1 := not_lt.2 (le_mul_of_one_le_right h1 h2)
    simp only [hpos1.ne', hpos2.ne', hinf1, hinf2, not_isNegInfinity h1, not_isNegInfinity hpos2.le,
      or_self, false_and, if_false, abs_of_pos (mul_pos hpos1 hpos2), abs_of_pos hpos1, hmult]

end NumberType

end Vazgen
