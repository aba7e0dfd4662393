import Mathlib.Order.Bounds.Defs
import Mathlib.Algebra.Order.Ring.Int

/-!
# Walks and distances

`Walk r a k b` is a walk of `k` steps of the relation `r` from `a` to `b`.  Labels that grow by at
most one along every step are at most the lengths of the walks (`Walk.exists_label`); if they are
lengths of walks besides, they are the distances from `a` (`isLeast_of_label`).
-/

namespace Distance

variable {α : Type} {r r' : α → α → Prop} {a b c : α} {k : Nat}

inductive Walk (r : α → α → Prop) (a : α) : Nat → α → Prop
  | nil : Walk r a 0 a
  | snoc {k : Nat} {b c : α} : Walk r a k b → r b c → Walk r a (k + 1) c

theorem Walk.mono (h : ∀ b c, r b c → r' b c) (hw : Walk r a k b) : Walk r' a k b := by
  induction hw with
  | nil => exact .nil
  | snoc _ hr ih => exact ih.snoc (h _ _ hr)

/-- The labels are lengths of walks from `a`. -/
def Sound (r : α → α → Prop) (a : α) (label : α → Option Int) : Prop :=
  ∀ b l, label b = some l → ∃ k : Nat, l = k ∧ Walk r a k b

/-- Along a step from a labelled element the label grows by at most one. -/
def Feasible (r : α → α → Prop) (label : α → Option Int) : Prop :=
  ∀ b c l, r b c → label b = some l → ∃ l' ≤ l + 1, label c = some l'

theorem Sound.mono (h : ∀ b c, r b c → r' b c) {label : α → Option Int} (hs : Sound r a label) :
    Sound r' a label := fun b l hl =>
  let ⟨k, hk, hw⟩ := hs b l hl
  ⟨k, hk, hw.mono h⟩

theorem Walk.exists_label {label : α → Option Int} (ha : label a = some 0)
    (hf : Feasible r label) (hw : Walk r a k b) : ∃ l ≤ (k : Int), label b = some l := by
  induction hw with
  | nil => exact ⟨0, le_rfl, ha⟩
  | @snoc k b c _ hr ih =>
    obtain ⟨l, hl, hb⟩ := ih
    obtain ⟨l', hl', hc⟩ := hf b c l hr hb
    exact ⟨l', by omega, hc⟩

/-- **Sound and feasible labels are distances.** -/
theorem isLeast_of_label (label : α → Option Int) (ha : label a = some 0) (hs : Sound r a label)
    (hf : Feasible r label) {l : Int} (hb : label b = some l) :
    ∃ k : Nat, l = k ∧ IsLeast {k | Walk r a k b} k := by
  obtain ⟨k, rfl, hw⟩ := hs b l hb
  refine ⟨k, rfl, hw, fun j hj => ?_⟩
  obtain ⟨l', hl', hb'⟩ := Walk.exists_label ha hf hj
  rw [hb] at hb'
  cases hb'
  omega

end Distance
