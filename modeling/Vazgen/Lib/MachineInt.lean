import Mathlib.Algebra.Order.BigOperators.Group.List
import Mathlib.Algebra.Order.Group.Int
import Mathlib.Algebra.Ring.Defs
import Mathlib.Algebra.Ring.Int.Defs
import Mathlib.Order.Defs.LinearOrder

/-!
# Machine integers as a ring

`Int32` with its own sums, products and order: a ring whose sums wrap around, and a linear order, so
that definitions over any ordered numbers can be run at the machine's.
-/

namespace MachineInt

instance instCommRing : CommRing Int32 where
  add_assoc := Int32.add_assoc
  zero_add := Int32.zero_add
  add_zero := Int32.add_zero
  add_comm := Int32.add_comm
  mul_assoc := Int32.mul_assoc
  one_mul := Int32.one_mul
  mul_one := Int32.mul_one
  mul_comm := Int32.mul_comm
  zero_mul _ := Int32.zero_mul
  mul_zero _ := Int32.mul_zero
  left_distrib _ _ _ := Int32.mul_add
  right_distrib _ _ _ := Int32.add_mul
  neg_add_cancel := Int32.add_left_neg
  sub_eq_add_neg := Int32.sub_eq_add_neg
  nsmul := nsmulRec
  zsmul := zsmulRec
  natCast := Int32.ofNat
  natCast_zero := rfl
  natCast_succ n := Int32.ofNat_add n 1
  intCast := Int32.ofInt
  intCast_ofNat _ := rfl
  intCast_negSucc n := Int32.ofInt_neg (n + 1 : Nat)

instance instLinearOrder : LinearOrder Int32 where
  le_refl := Int32.le_refl
  le_trans _ _ _ := Int32.le_trans
  le_antisymm _ _ := Int32.le_antisymm
  le_total := Int32.le_total
  lt_iff_le_not_ge a b := by
    rw [Int32.lt_iff_toInt_lt, Int32.le_iff_toInt_le, Int32.le_iff_toInt_le]
    omega
  toDecidableLE := inferInstance
  toDecidableEq := inferInstance
  toDecidableLT := inferInstance

theorem toInt_nonneg {a : Int32} (ha : 0 ≤ a) : 0 ≤ a.toInt :=
  Int32.le_iff_toInt_le.1 ha

theorem sum_map_toInt_nonneg {as : List Int32} (has : ∀ a ∈ as, 0 ≤ a) :
    0 ≤ (as.map Int32.toInt).sum :=
  List.sum_nonneg (List.forall_mem_map.2 fun a ha => toInt_nonneg (has a ha))

/-- The sum of two numbers that wraps around is negative. -/
theorem toInt_add_of_nonneg {a b : Int32} (ha : 0 ≤ a) (hb : 0 ≤ b) :
    (a + b).toInt =
      if a.toInt + b.toInt < 2 ^ 31 then a.toInt + b.toInt else a.toInt + b.toInt - 2 ^ 32 := by
  have h1 := toInt_nonneg ha
  have h2 := toInt_nonneg hb
  have h3 := a.toInt_lt
  have h4 := b.toInt_lt
  rw [Int32.toInt_add, Int.bmod_def]
  split <;> split <;> omega

theorem toInt_ofNat_of_le {n : Nat} (hn : n ≤ 2147483647) : (Int32.ofNat n).toInt = n := by
  have hsize : Int32.size = 4294967296 := rfl
  rw [Int32.toInt_ofNat', Int.bmod_def, hsize]
  split <;> omega

theorem ofNat_count_concat {α : Type} [DecidableEq α] (l : List α) (a b : α) :
    Int32.ofNat ((l ++ [a]).count b) =
      if b = a then Int32.ofNat (l.count b) + 1 else Int32.ofNat (l.count b) := by
  rw [List.count_append, Int32.ofNat_add]
  split
  · subst b
    rw [List.count_singleton_self]
    rfl
  · have hother : [a].count b = 0 := List.count_eq_zero_of_not_mem (by rwa [List.mem_singleton])
    rw [hother]
    exact add_zero _

end MachineInt
