import Mathlib.Algebra.BigOperators.Group.List.Basic
import Mathlib.Algebra.Order.Field.Basic
import Mathlib.Algebra.Order.BigOperators.Group.List
import Mathlib.Tactic.Linarith
import Mathlib.Tactic.Ring
import Vazgen.Lib.Cut

/-!
# Linear programs, and level sets of their solutions

`Program` is a maximisation problem over bounded real variables, as it is handed to a solver.

The second part is about the programs that reward two ends of an arc for being equal: `relaxed` is
the largest value that node variables `x` allow.  A solution `x` with values in `[0, 1]` is a convex
combination of the indicator of its level set `{x = 1}` and of another such `y`, along which
`relaxed` is affine (`relaxed_split`).  So the level set of a maximal solution is as good as the
solution (`level_maximal`).
-/

namespace LinearProgram

variable {V R : Type}

/-! ## Programs -/

inductive Relation where
  | le
  | ge
deriving DecidableEq

/-- `terms` related to `bound`; a term is a variable and its coefficient. -/
structure Constraint (V R : Type) where
  terms : List (V × R)
  relation : Relation
  bound : R

structure Variable (V R : Type) where
  var : V
  lower : R
  upper : R
  name : String

structure Program (V R : Type) where
  vars : List (Variable V R)
  constraints : List (Constraint V R)
  objective : List (V × R)

section Semantics

variable [Zero R] [Add R] [Mul R]

def eval (terms : List (V × R)) (x : V → R) : R := (terms.map fun t => t.2 * x t.1).sum

variable [LE R]

def Constraint.Holds (c : Constraint V R) (x : V → R) : Prop :=
  match c.relation with
  | .le => eval c.terms x ≤ c.bound
  | .ge => c.bound ≤ eval c.terms x

structure Program.Feasible (p : Program V R) (x : V → R) : Prop where
  bounds : ∀ v ∈ p.vars, v.lower ≤ x v.var ∧ x v.var ≤ v.upper
  constraints : ∀ c ∈ p.constraints, c.Holds x

/-- A feasible solution with the largest objective. -/
structure Program.Optimal (p : Program V R) (x : V → R) : Prop where
  feasible : p.Feasible x
  maximal : ∀ y, p.Feasible y → eval p.objective y ≤ eval p.objective x

end Semantics

end LinearProgram

/-! ## Level sets -/

namespace LevelSet

open Cut

variable {V R : Type} [Field R] [LinearOrder R]

/-- The rewards of the arcs, larger the closer their ends, and the costs of the nodes. -/
def relaxed (nodes : List V) (arcs : List (Arc V R)) (cost : V → R) (x : V → R) : R :=
  (arcs.map fun e => e.weight * (1 - |x e.src - x e.dst|)).sum +
    (nodes.map fun v => cost v * x v).sum

/-- The indicator of the level set `{x = 1}`. -/
def level (x : V → R) (v : V) : R := if x v = 1 then 1 else 0

/-- The weight of the arcs with both ends on one side of `S`, and the costs of the nodes in `S`. -/
def score [DecidableEq V] (nodes : List V) (arcs : List (Arc V R)) (cost : V → R) (S : Finset V) :
    R :=
  (arcs.map fun e => if e.src ∈ S ↔ e.dst ∈ S then e.weight else 0).sum +
    (nodes.map fun v => if v ∈ S then cost v else 0).sum

/-- The values of an indicator. -/
def indicator [DecidableEq V] (S : Finset V) (v : V) : R := if v ∈ S then 1 else 0

variable [IsStrictOrderedRing R]

theorem relaxed_indicator [DecidableEq V] (nodes : List V) (arcs : List (Arc V R)) (cost : V → R)
    (S : Finset V) : relaxed nodes arcs cost (indicator S) = score nodes arcs cost S := by
  unfold relaxed score indicator
  congr 1
  · refine congrArg List.sum (List.map_congr_left fun e _ => ?_)
    by_cases h1 : e.src ∈ S <;> by_cases h2 : e.dst ∈ S <;> simp [h1, h2]
  · refine congrArg List.sum (List.map_congr_left fun v _ => ?_)
    by_cases h : v ∈ S <;> simp [h]

omit [IsStrictOrderedRing R] in
/-- Only the values of the nodes count. -/
theorem relaxed_congr {nodes : List V} {arcs : List (Arc V R)} {cost : V → R} {x y : V → R}
    (hends : ∀ e ∈ arcs, e.src ∈ nodes ∧ e.dst ∈ nodes) (h : ∀ v ∈ nodes, x v = y v) :
    relaxed nodes arcs cost x = relaxed nodes arcs cost y := by
  unfold relaxed
  congr 1
  · refine congrArg List.sum (List.map_congr_left fun e he => ?_)
    rw [h e.src (hends e he).1, h e.dst (hends e he).2]
  · refine congrArg List.sum (List.map_congr_left fun v hv => ?_)
    rw [h v hv]

/-- The values below one keep a distance from it. -/
theorem exists_gap (nodes : List V) (x : V → R) (h : ∀ v ∈ nodes, x v ≤ 1) :
    ∃ δ : R, 0 < δ ∧ δ < 1 ∧ ∀ v ∈ nodes, x v ≠ 1 → x v ≤ 1 - δ := by
  induction nodes with
  | nil => exact ⟨1 / 2, by norm_num, by norm_num, fun v hv => by cases hv⟩
  | cons a nodes ih =>
    obtain ⟨δ, h0, h1, hδ⟩ := ih fun v hv => h v (List.mem_cons_of_mem a hv)
    by_cases ha : x a = 1
    · refine ⟨δ, h0, h1, fun v hv hne => ?_⟩
      rcases List.mem_cons.1 hv with rfl | hv
      · exact absurd ha hne
      · exact hδ v hv hne
    · have hlt : x a < 1 := lt_of_le_of_ne (h a List.mem_cons_self) ha
      refine ⟨min δ (1 - x a), lt_min h0 (by linarith), (min_le_left _ _).trans_lt h1,
        fun v hv hne => ?_⟩
      rcases List.mem_cons.1 hv with rfl | hv
      · linarith [min_le_right δ (1 - x v)]
      · linarith [min_le_left δ (1 - x a), hδ v hv hne]

/-- What is left of `x` when its level set is split off with the factor `δ`. -/
def rest (δ : R) (x : V → R) (v : V) : R := if x v = 1 then 1 else x v / (1 - δ)

/-- `x` is a convex combination of its level set and the rest. -/
theorem eq_split {δ : R} (hδ : δ < 1) (x : V → R) (v : V) :
    x v = δ * level x v + (1 - δ) * rest δ x v := by
  unfold level rest
  split
  · next h => rw [h]; ring
  · have : (1 - δ) ≠ 0 := by linarith
    rw [mul_zero, zero_add, mul_div_cancel₀ _ this]

theorem rest_mem {δ : R} (hδ : δ < 1) {x : V → R} {v : V} (h0 : 0 ≤ x v)
    (hgap : x v ≠ 1 → x v ≤ 1 - δ) : 0 ≤ rest δ x v ∧ rest δ x v ≤ 1 := by
  unfold rest
  split
  · exact ⟨zero_le_one, le_refl 1⟩
  · next h =>
    have hpos : 0 < 1 - δ := by linarith
    exact ⟨div_nonneg h0 hpos.le, (div_le_one hpos).2 (hgap h)⟩

/-- No pair is ordered differently in the level set and in the rest. -/
theorem level_rest_sign {δ : R} {x : V → R} {u v : V} (hu : rest δ x u ≤ 1)
    (hv : rest δ x v ≤ 1) :
    (0 ≤ level x u - level x v ∧ 0 ≤ rest δ x u - rest δ x v) ∨
      (level x u - level x v ≤ 0 ∧ rest δ x u - rest δ x v ≤ 0) := by
  by_cases h1 : x u = 1
  · have hrest : rest δ x u = 1 := if_pos h1
    have hlevel : level x u = 1 := if_pos h1
    refine .inl ⟨?_, by linarith⟩
    rw [hlevel]
    unfold level
    split
    · linarith
    · linarith
  · have hlevel : level x u = 0 := if_neg h1
    by_cases h2 : x v = 1
    · have hrest : rest δ x v = 1 := if_pos h2
      have hlevel' : level x v = 1 := if_pos h2
      exact .inr ⟨by linarith, by linarith⟩
    · have hlevel' : level x v = 0 := if_neg h2
      rcases le_total 0 (rest δ x u - rest δ x v) with h | h
      · exact .inl ⟨by linarith, h⟩
      · exact .inr ⟨by linarith, h⟩

/-- The distance of two values is the same combination. -/
theorem abs_split {δ : R} (h0 : 0 < δ) (hδ : δ < 1) {x : V → R} {u v : V}
    (hu : rest δ x u ≤ 1) (hv : rest δ x v ≤ 1) :
    |x u - x v| = δ * |level x u - level x v| + (1 - δ) * |rest δ x u - rest δ x v| := by
  have hpos : 0 ≤ 1 - δ := by linarith
  have hx : x u - x v = δ * (level x u - level x v) + (1 - δ) * (rest δ x u - rest δ x v) := by
    rw [eq_split hδ x u, eq_split hδ x v]
    ring
  rw [hx]
  rcases level_rest_sign hu hv with ⟨ha, hb⟩ | ⟨ha, hb⟩
  · rw [abs_of_nonneg ha, abs_of_nonneg hb,
      abs_of_nonneg (add_nonneg (mul_nonneg h0.le ha) (mul_nonneg hpos hb))]
  · rw [abs_of_nonpos ha, abs_of_nonpos hb, abs_of_nonpos (add_nonpos
      (mul_nonpos_of_nonneg_of_nonpos h0.le ha) (mul_nonpos_of_nonneg_of_nonpos hpos hb))]
    ring

omit [LinearOrder R] [IsStrictOrderedRing R] in
theorem sum_split {α : Type} (l : List α) (δ : R) {f g h : α → R}
    (hf : ∀ a ∈ l, f a = δ * g a + (1 - δ) * h a) :
    (l.map f).sum = δ * (l.map g).sum + (1 - δ) * (l.map h).sum := by
  rw [List.map_congr_left hf]
  induction l with
  | nil => simp
  | cons a l ih =>
    simp only [List.map_cons, List.sum_cons]
    rw [ih fun b hb => hf b (List.mem_cons_of_mem a hb)]
    ring

/-- `relaxed` is affine along the combination. -/
theorem relaxed_split {nodes : List V} {arcs : List (Arc V R)} (cost : V → R) {δ : R}
    (h0 : 0 < δ) (hδ : δ < 1) {x : V → R} (hrest : ∀ v ∈ nodes, rest δ x v ≤ 1)
    (hends : ∀ e ∈ arcs, e.src ∈ nodes ∧ e.dst ∈ nodes) :
    relaxed nodes arcs cost x =
      δ * relaxed nodes arcs cost (level x) + (1 - δ) * relaxed nodes arcs cost (rest δ x) := by
  have harcs := sum_split arcs δ (f := fun e => e.weight * (1 - |x e.src - x e.dst|))
    (g := fun e => e.weight * (1 - |level x e.src - level x e.dst|))
    (h := fun e => e.weight * (1 - |rest δ x e.src - rest δ x e.dst|)) fun e he => by
      rw [abs_split h0 hδ (hrest _ (hends e he).1) (hrest _ (hends e he).2)]
      ring
  have hnodes := sum_split nodes δ (f := fun v => cost v * x v)
    (g := fun v => cost v * level x v) (h := fun v => cost v * rest δ x v) fun v _ => by
      nth_rewrite 1 [eq_split hδ x v]
      ring
  unfold relaxed
  rw [harcs, hnodes]
  ring

/-- **The level set of a maximal solution is maximal.**  `P` are the values allowed; both parts of
the combination are allowed. -/
theorem level_maximal {nodes : List V} {arcs : List (Arc V R)} {cost : V → R} {x : V → R}
    (hx : ∀ v ∈ nodes, 0 ≤ x v ∧ x v ≤ 1) (hends : ∀ e ∈ arcs, e.src ∈ nodes ∧ e.dst ∈ nodes)
    (hmax : ∀ y : V → R, (∀ v ∈ nodes, 0 ≤ y v ∧ y v ≤ 1) → (∀ v, x v = 1 → y v = 1) →
      (∀ v, x v = 0 → y v = 0) → relaxed nodes arcs cost y ≤ relaxed nodes arcs cost x) :
    relaxed nodes arcs cost x ≤ relaxed nodes arcs cost (level x) := by
  obtain ⟨δ, h0, hδ, hgap⟩ := exists_gap nodes x fun v hv => (hx v hv).2
  have hrest : ∀ v ∈ nodes, 0 ≤ rest δ x v ∧ rest δ x v ≤ 1 := fun v hv =>
    rest_mem hδ (hx v hv).1 (hgap v hv)
  have hle := hmax (rest δ x) hrest (fun v hv => if_pos hv) fun v hv => by
    unfold rest
    rw [hv, zero_div]
    split
    · next h => exact absurd h zero_ne_one
    · rfl
  have hsplit := relaxed_split cost h0 hδ (fun v hv => (hrest v hv).2) hends
  have hpos : 0 ≤ 1 - δ := by linarith
  have hmul := mul_le_mul_of_nonneg_left hle hpos
  by_contra hlt
  rw [not_le] at hlt
  have := mul_lt_mul_of_pos_left hlt h0
  linarith

end LevelSet
