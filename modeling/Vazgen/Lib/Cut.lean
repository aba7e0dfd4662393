import Mathlib.Algebra.BigOperators.Group.List.Basic
import Mathlib.Algebra.BigOperators.Group.List.Lemmas
import Mathlib.Algebra.Group.Basic
import Mathlib.Algebra.GroupWithZero.Action.Defs
import Mathlib.Algebra.Order.BigOperators.Group.List
import Mathlib.Data.Finset.Basic
import Mathlib.Tactic.Abel

/-!
# Cuts of a weighted graph

A graph is a list of weighted arcs.  `cut S` is the weight of the arcs between `S` and its
complement.  `gain S v` is what a vertex of `S` sees of it: the weight of its arcs that leave `S`
minus the weight of those that stay in `S`, an arc from `v` to itself counting twice.

* `cut_erase`: moving `v` out of `S` lowers the cut by the gain, up to the arcs from `v` to itself.
* `sum_side_erase`: how the gains of the others change with it.

`Moves cost S ms` says that `ms` moves vertices out of `S` one after the other, each recorded with
its gain plus its `cost`.

* `Moves.cut_le`: a sequence of moves whose records sum up to at least zero raises the cut by no
  more than the costs.
-/

namespace Cut

variable {V R : Type} [DecidableEq V]

structure Arc (V R : Type) where
  src : V
  dst : V
  weight : R
deriving DecidableEq

section Group

variable [AddCommGroup R]

/-- The weight, negative when the other end `x` is in `S`. -/
def side (S : Finset V) (x : V) (w : R) : R := if x ∈ S then -w else w

/-- The total weight of the arcs between `S` and its complement. -/
def cut (arcs : List (Arc V R)) (S : Finset V) : R :=
  (arcs.map fun e => if e.src ∈ S ↔ e.dst ∈ S then 0 else e.weight).sum

def gain (arcs : List (Arc V R)) (S : Finset V) (v : V) : R :=
  ((arcs.filter (·.dst = v)).map fun e => side S e.src e.weight).sum +
    ((arcs.filter (·.src = v)).map fun e => side S e.dst e.weight).sum

/-- The total weight of the arcs from `v` to itself. -/
def selfWeight (arcs : List (Arc V R)) (v : V) : R :=
  ((arcs.filter fun e => e.src = v ∧ e.dst = v).map (·.weight)).sum

theorem cut_cons (e : Arc V R) (arcs : List (Arc V R)) (S : Finset V) :
    cut (e :: arcs) S = (if e.src ∈ S ↔ e.dst ∈ S then 0 else e.weight) + cut arcs S := by
  simp [cut]

omit [DecidableEq V] in
theorem sum_filter_cons (p : Arc V R → Bool) (f : Arc V R → R) (e : Arc V R)
    (arcs : List (Arc V R)) :
    (((e :: arcs).filter p).map f).sum = (if p e then f e else 0) + ((arcs.filter p).map f).sum := by
  cases h : p e <;> simp [h]

theorem gain_cons (e : Arc V R) (arcs : List (Arc V R)) (S : Finset V) (v : V) :
    gain (e :: arcs) S v = (if e.dst = v then side S e.src e.weight else 0) +
      (if e.src = v then side S e.dst e.weight else 0) + gain arcs S v := by
  simp only [gain, sum_filter_cons, decide_eq_true_eq]
  abel

theorem selfWeight_cons (e : Arc V R) (arcs : List (Arc V R)) (v : V) :
    selfWeight (e :: arcs) v =
      (if e.src = v ∧ e.dst = v then e.weight else 0) + selfWeight arcs v := by
  simp only [selfWeight, sum_filter_cons, decide_eq_true_eq]

/-- **Moving a vertex out of `S`** lowers the cut by its gain and twice its arcs to itself. -/
theorem cut_erase (arcs : List (Arc V R)) {S : Finset V} {v : V} (hv : v ∈ S) :
    cut arcs S = cut arcs (S.erase v) + gain arcs S v + (2 : ℤ) • selfWeight arcs v := by
  induction arcs with
  | nil => simp [cut, gain, selfWeight]
  | cons e arcs ih =>
    have harc : (if e.src ∈ S ↔ e.dst ∈ S then 0 else e.weight) =
        (if e.src ∈ S.erase v ↔ e.dst ∈ S.erase v then 0 else e.weight) +
        ((if e.dst = v then side S e.src e.weight else 0) +
          (if e.src = v then side S e.dst e.weight else 0)) +
        (2 : ℤ) • (if e.src = v ∧ e.dst = v then e.weight else 0) := by
      unfold side
      by_cases h1 : e.src = v
      · by_cases h2 : e.dst = v
        · simp [h1, h2, hv]
          abel
        · by_cases h3 : e.dst ∈ S <;> simp [h1, h2, h3, hv]
      · by_cases h2 : e.dst = v
        · by_cases h3 : e.src ∈ S <;> simp [h1, h2, h3, hv]
        · simp [h1, h2]
    rw [cut_cons, cut_cons, gain_cons, selfWeight_cons, ih, harc, zsmul_add]
    abel

/-- Moving `v` out of `S` turns the weights of `v` around. -/
theorem side_erase {S : Finset V} {v : V} (hv : v ∈ S) (x : V) (w : R) :
    side (S.erase v) x w = side S x w + (2 : ℤ) • (if x = v then w else 0) := by
  unfold side
  by_cases hx : x = v
  · simp [hx, hv]
    abel
  · simp [hx]

theorem sum_side_erase {α : Type} {S : Finset V} {v : V} (hv : v ∈ S) (other : α → V)
    (weight : α → R) (l : List α) :
    (l.map fun e => side (S.erase v) (other e) (weight e)).sum =
      (l.map fun e => side S (other e) (weight e)).sum +
        (2 : ℤ) • (l.map fun e => if other e = v then weight e else 0).sum := by
  induction l with
  | nil => simp
  | cons e l ih =>
    simp only [List.map_cons, List.sum_cons]
    rw [ih, side_erase hv, zsmul_add]
    abel

end Group

/-! ## Sequences of moves -/

section Moves

/-- `S` after the moves. -/
def eraseAll (S : Finset V) (ms : List (V × R)) : Finset V := ms.foldl (fun S m => S.erase m.1) S

theorem mem_eraseAll {S : Finset V} {ms : List (V × R)} {v : V} :
    v ∈ eraseAll S ms ↔ v ∈ S ∧ v ∉ ms.map (·.1) := by
  unfold eraseAll
  induction ms generalizing S with
  | nil => simp
  | cons m ms ih =>
    rw [List.foldl_cons, ih, Finset.mem_erase, List.map_cons, List.mem_cons]
    tauto

variable [AddCommGroup R] {arcs : List (Arc V R)} {cost : V → R}

/-- Each vertex is moved out of what is left of `S`, and recorded with its gain and its cost. -/
def Moves (arcs : List (Arc V R)) (cost : V → R) : Finset V → List (V × R) → Prop
  | _, [] => True
  | S, (v, g) :: ms => v ∈ S ∧ g = gain arcs S v + cost v ∧ Moves arcs cost (S.erase v) ms

theorem Moves.concat {S : Finset V} {ms : List (V × R)} {v : V} {g : R}
    (h : Moves arcs cost S ms) (hv : v ∈ eraseAll S ms)
    (hg : g = gain arcs (eraseAll S ms) v + cost v) : Moves arcs cost S (ms ++ [(v, g)]) := by
  induction ms generalizing S with
  | nil => exact ⟨hv, hg, trivial⟩
  | cons m ms ih => exact ⟨h.1, h.2.1, ih h.2.2 hv hg⟩

theorem Moves.take {S : Finset V} {ms : List (V × R)} (h : Moves arcs cost S ms) (k : Nat) :
    Moves arcs cost S (ms.take k) := by
  induction ms generalizing S k with
  | nil => rw [List.take_nil]; exact h
  | cons m ms ih =>
    cases k with
    | zero => trivial
    | succ k => exact ⟨h.1, h.2.1, ih h.2.2 k⟩

/-- **Telescoping.**  The moves lower the cut by what they record, up to the costs and the arcs of
the moved vertices to themselves. -/
theorem Moves.cut_eq {S : Finset V} {ms : List (V × R)} (h : Moves arcs cost S ms) :
    cut arcs S + (ms.map fun m => cost m.1).sum = cut arcs (eraseAll S ms) + (ms.map (·.2)).sum +
      (2 : ℤ) • (ms.map fun m => selfWeight arcs m.1).sum := by
  induction ms generalizing S with
  | nil => simp [eraseAll]
  | cons m ms ih =>
    obtain ⟨v, g⟩ := m
    obtain ⟨hv, rfl, h⟩ := h
    have hmove := cut_erase arcs hv
    have hrest := ih h
    simp only [List.map_cons, List.sum_cons, zsmul_add]
    show _ = cut arcs (eraseAll (S.erase v) ms) + _ + _
    calc cut arcs S + (cost v + (ms.map fun m => cost m.1).sum)
        = (cut arcs (S.erase v) + (ms.map fun m => cost m.1).sum) +
            (gain arcs S v + cost v) + (2 : ℤ) • selfWeight arcs v := by rw [hmove]; abel
      _ = _ := by rw [hrest]; abel

end Moves

/-! ## Graphs without negative weights -/

section Nonneg

variable [AddCommGroup R] [PartialOrder R] [IsOrderedAddMonoid R] {arcs : List (Arc V R)}

theorem selfWeight_nonneg (h : ∀ e ∈ arcs, 0 ≤ e.weight) (v : V) : 0 ≤ selfWeight arcs v := by
  refine List.sum_nonneg fun w hw => ?_
  obtain ⟨e, he, rfl⟩ := List.mem_map.1 hw
  exact h e (List.mem_of_mem_filter he)

/-- **Moves that record no loss raise the cut by their costs at most.** -/
theorem Moves.cut_le {cost : V → R} {S : Finset V} {ms : List (V × R)}
    (h : Moves arcs cost S ms) (hw : ∀ e ∈ arcs, 0 ≤ e.weight) (hgain : 0 ≤ (ms.map (·.2)).sum) :
    cut arcs (eraseAll S ms) ≤ cut arcs S + (ms.map fun m => cost m.1).sum := by
  have hself : 0 ≤ (ms.map fun m => selfWeight arcs m.1).sum := by
    refine List.sum_nonneg fun w hm => ?_
    obtain ⟨m, -, rfl⟩ := List.mem_map.1 hm
    exact selfWeight_nonneg hw m.1
  rw [h.cut_eq, add_assoc]
  refine le_add_of_nonneg_right (add_nonneg hgain ?_)
  rw [two_zsmul]
  exact add_nonneg hself hself

end Nonneg

end Cut
