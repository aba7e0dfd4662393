import Mathlib.Algebra.Order.Field.Basic
import Mathlib.Order.Interval.Set.Defs

/-!
# Rescaling a list to the unit interval

The values of a list are moved and scaled so that the least becomes 0 and the greatest 1; if all are
equal they stay as they are.  `Extremes` says what is the least and the greatest value.

Rescaling keeps the order (`rescale_lt_rescale_iff`), and if the values are not all equal, it leads to
the unit interval (`rescale_mem_Icc`) and does not depend on the unit (`rescale_mul`).
-/

namespace Rescale

variable {K : Type} [Field K] [LinearOrder K] [IsStrictOrderedRing K]

/-! ## One value -/

def rescale (lo hi x : K) : K := if hi - lo = 0 then lo else (x - lo) / (hi - lo)

variable {lo hi x y : K}

omit [IsStrictOrderedRing K] in
theorem rescale_of_lt (h : lo < hi) : rescale lo hi x = (x - lo) / (hi - lo) := by
  unfold rescale
  rw [if_neg (sub_ne_zero.2 h.ne')]

omit [IsStrictOrderedRing K] in
/-- Between equal bounds there is nothing to rescale. -/
theorem rescale_self (hx : x ∈ Set.Icc lo lo) : rescale lo lo x = x := by
  unfold rescale
  rw [if_pos (sub_self lo)]
  exact le_antisymm hx.1 hx.2

theorem rescale_mem_Icc (h : lo < hi) (hx : x ∈ Set.Icc lo hi) :
    rescale lo hi x ∈ Set.Icc (0 : K) 1 := by
  have hpos : 0 < hi - lo := sub_pos.2 h
  rw [rescale_of_lt h]
  constructor
  · exact div_nonneg (sub_nonneg.2 hx.1) hpos.le
  · rw [div_le_one hpos]
    exact sub_le_sub_right hx.2 lo

theorem rescale_lt_rescale_iff (hx : x ∈ Set.Icc lo hi) (hy : y ∈ Set.Icc lo hi) :
    rescale lo hi x < rescale lo hi y ↔ x < y := by
  rcases (hx.1.trans hx.2).eq_or_lt with rfl | h
  · rw [rescale_self hx, rescale_self hy]
  · rw [rescale_of_lt h, rescale_of_lt h, div_lt_div_iff_of_pos_right (sub_pos.2 h),
      sub_lt_sub_iff_right]

theorem rescale_inj (hx : x ∈ Set.Icc lo hi) (hy : y ∈ Set.Icc lo hi) :
    rescale lo hi x = rescale lo hi y ↔ x = y := by
  refine ⟨fun h => ?_, fun h => h ▸ rfl⟩
  refine le_antisymm (not_lt.1 fun hlt => ?_) (not_lt.1 fun hlt => ?_)
  · exact ((rescale_lt_rescale_iff hy hx).2 hlt).ne' h
  · exact ((rescale_lt_rescale_iff hx hy).2 hlt).ne h

omit [IsStrictOrderedRing K] in
theorem rescale_mul {c : K} (hc : c ≠ 0) (h : lo ≠ hi) :
    rescale (c * lo) (c * hi) (c * x) = rescale lo hi x := by
  unfold rescale
  rw [← mul_sub, ← mul_sub, if_neg (mul_ne_zero hc (sub_ne_zero.2 h.symm)),
    if_neg (sub_ne_zero.2 h.symm), mul_div_mul_left _ _ hc]

/-! ## The least and the greatest value of a list -/

/-- `lo` is the least and `hi` the greatest of the values. -/
structure Extremes (values : List K) (lo hi : K) : Prop where
  lo_mem : lo ∈ values
  hi_mem : hi ∈ values
  mem_Icc : ∀ x ∈ values, x ∈ Set.Icc lo hi

variable {values : List K}

omit [Field K] [IsStrictOrderedRing K] in
theorem Extremes.le (h : Extremes values lo hi) : lo ≤ hi := (h.mem_Icc hi h.hi_mem).1

omit [Field K] [IsStrictOrderedRing K] in
theorem Extremes.unique {lo' hi' : K} (h : Extremes values lo hi) (h' : Extremes values lo' hi') :
    lo = lo' ∧ hi = hi' :=
  ⟨le_antisymm (h.mem_Icc _ h'.lo_mem).1 (h'.mem_Icc _ h.lo_mem).1,
    le_antisymm (h'.mem_Icc _ h.hi_mem).2 (h.mem_Icc _ h'.hi_mem).2⟩

omit [Field K] [IsStrictOrderedRing K] in
theorem Extremes.eq_iff (h : Extremes values lo hi) : lo = hi ↔ ∀ x ∈ values, ∀ y ∈ values, x = y := by
  refine ⟨?_, fun hall => hall lo h.lo_mem hi h.hi_mem⟩
  rintro rfl x hx y hy
  have hx := h.mem_Icc x hx
  have hy := h.mem_Icc y hy
  exact (le_antisymm hx.2 hx.1).trans (le_antisymm hy.1 hy.2)

theorem Extremes.mul {c : K} (hc : 0 < c) (h : Extremes values lo hi) :
    Extremes (values.map (c * ·)) (c * lo) (c * hi) where
  lo_mem := List.mem_map_of_mem h.lo_mem
  hi_mem := List.mem_map_of_mem h.hi_mem
  mem_Icc := List.forall_mem_map.2 fun x hx =>
    ⟨mul_le_mul_of_nonneg_left (h.mem_Icc x hx).1 hc.le,
      mul_le_mul_of_nonneg_left (h.mem_Icc x hx).2 hc.le⟩

omit [Field K] [IsStrictOrderedRing K] in
/-- The loops that look for the extremes, one keeping the first of equal values. -/
theorem extremes_foldl (first : K) (values : List K) :
    Extremes (first :: values)
      (values.foldl (fun lo x => if x < lo then x else lo) first)
      (values.foldl (fun hi x => if hi < x then x else hi) first) := by
  have hmin : (fun lo x : K => if x < lo then x else lo) = min := by
    funext lo x
    rw [min_comm, min_def_lt]
  have hmax : (fun hi x : K => if hi < x then x else hi) = max := by
    funext hi x
    rw [max_def_lt]
  have hmin? : (first :: values).min? = some (values.foldl min first) := List.min?_cons'
  have hmax? : (first :: values).max? = some (values.foldl max first) := List.max?_cons'
  have hlo := List.min?_eq_some_iff.1 hmin?
  have hhi := List.max?_eq_some_iff.1 hmax?
  rw [hmin, hmax]
  exact ⟨hlo.1, hhi.1, fun x hx => ⟨hlo.2 x hx, hhi.2 x hx⟩⟩

omit [Field K] [IsStrictOrderedRing K] in
theorem exists_extremes (hne : values ≠ []) : ∃ lo hi, Extremes values lo hi := by
  cases values with
  | nil => exact absurd rfl hne
  | cons first values => exact ⟨_, _, extremes_foldl first values⟩

/-! ## A value among the values of a list -/

/-- Rescale from the extremes of a list. -/
def rescaleIn (values : List K) (x : K) : K :=
  match values with
  | [] => x
  | first :: values =>
    rescale (values.foldl (fun lo x => if x < lo then x else lo) first)
      (values.foldl (fun hi x => if hi < x then x else hi) first) x

omit [IsStrictOrderedRing K] in
theorem rescaleIn_eq (h : Extremes values lo hi) (x : K) : rescaleIn values x = rescale lo hi x := by
  cases values with
  | nil => cases h.lo_mem
  | cons first values =>
    obtain ⟨rfl, rfl⟩ := h.unique (extremes_foldl first values)
    rfl

omit [IsStrictOrderedRing K] in
/-- The order and the multiplicity of the values do not matter. -/
theorem rescaleIn_congr {values' : List K} (h : ∀ x, x ∈ values ↔ x ∈ values') (x : K) :
    rescaleIn values x = rescaleIn values' x := by
  cases values with
  | nil =>
    cases values' with
    | nil => rfl
    | cons first values' => exact absurd ((h first).2 List.mem_cons_self) List.not_mem_nil
  | cons first values =>
    obtain ⟨lo, hi, hextremes⟩ := exists_extremes (List.cons_ne_nil first values)
    have hextremes' : Extremes values' lo hi :=
      ⟨(h lo).1 hextremes.lo_mem, (h hi).1 hextremes.hi_mem,
        fun y hy => hextremes.mem_Icc y ((h y).2 hy)⟩
    rw [rescaleIn_eq hextremes, rescaleIn_eq hextremes']

theorem rescaleIn_nonneg (hx : x ∈ values) (hnonneg : ∀ y ∈ values, 0 ≤ y) :
    0 ≤ rescaleIn values x := by
  obtain ⟨lo, hi, hextremes⟩ := exists_extremes (List.ne_nil_of_mem hx)
  rw [rescaleIn_eq hextremes]
  rcases hextremes.le.eq_or_lt with rfl | hlt
  · rw [rescale_self (hextremes.mem_Icc x hx)]
    exact hnonneg x hx
  · exact (rescale_mem_Icc hlt (hextremes.mem_Icc x hx)).1

end Rescale
