import Mathlib.Algebra.BigOperators.Group.List.Basic
import Mathlib.Algebra.Order.Monoid.Defs

/-!
# The first maximum of a list, and its best prefix

`maxElement` is `std::max_element`: the index of the first maximum (`maxElement_split`).
`bestPrefix` is the length of the longest prefix whose sum is maximal among all prefixes, the empty
one included (`best_bestPrefix`).
-/

namespace BestPrefix

variable {R : Type}

/-! ## Algorithm -/

section Model

/-- The scan of `std::max_element`: `largest` at `idx` is the first maximum so far, `i` the next
index. -/
def maxElementFrom [LT R] [DecidableLT R] (largest : R) (idx i : Nat) : List R → Nat
  | [] => idx
  | x :: xs =>
    if largest < x then maxElementFrom x i (i + 1) xs else maxElementFrom largest idx (i + 1) xs

/-- `std::max_element`, as an index. -/
def maxElement [LT R] [DecidableLT R] : List R → Nat
  | [] => 0
  | x :: xs => maxElementFrom x 0 1 xs

/-- The scan of `bestPrefix`: `best` is the largest sum so far, reached by `kept` elements, `sum`
the sum of the first `i` elements. -/
def bestPrefixFrom [Add R] [LE R] [DecidableLE R] (best sum : R) (kept i : Nat) : List R → Nat
  | [] => kept
  | x :: xs =>
    if best ≤ sum + x then bestPrefixFrom (sum + x) (sum + x) (i + 1) (i + 1) xs
    else bestPrefixFrom best (sum + x) kept (i + 1) xs

/-- How many elements of the list to keep. -/
def bestPrefix [Zero R] [Add R] [LE R] [DecidableLE R] (xs : List R) : Nat :=
  bestPrefixFrom 0 0 0 0 xs

end Model

/-! ## Lemmas -/

section First

variable [LT R] [DecidableLT R]

theorem maxElementFrom_lt (xs : List R) :
    ∀ (largest : R) (idx i : Nat), idx < i → maxElementFrom largest idx i xs < i + xs.length := by
  induction xs with
  | nil => intro largest idx i h; exact h
  | cons x xs ih =>
    intro largest idx i h
    rw [List.length_cons, maxElementFrom]
    split
    · have := ih x i (i + 1) (Nat.lt_succ_self i)
      omega
    · have := ih largest idx (i + 1) (by omega)
      omega

theorem maxElement_lt {xs : List R} (h : xs ≠ []) : maxElement xs < xs.length := by
  cases xs with
  | nil => exact absurd rfl h
  | cons x xs =>
    have := maxElementFrom_lt xs x 0 1 Nat.one_pos
    rw [List.length_cons, maxElement]
    omega

end First

section Split

variable [LinearOrder R]

/-- The scan, when the elements seen so far are `l₁ ++ largest :: l₂`. -/
theorem maxElementFrom_split (xs : List R) :
    ∀ (l₁ l₂ : List R) (largest : R), (∀ y ∈ l₁, y < largest) → (∀ y ∈ l₂, y ≤ largest) →
      ∃ m₁ x m₂, l₁ ++ largest :: l₂ ++ xs = m₁ ++ x :: m₂ ∧
        m₁.length = maxElementFrom largest l₁.length (l₁ ++ largest :: l₂).length xs ∧
        (∀ y ∈ m₁, y < x) ∧ ∀ y ∈ m₂, y ≤ x := by
  induction xs with
  | nil =>
    intro l₁ l₂ largest h₁ h₂
    exact ⟨l₁, largest, l₂, List.append_nil _, rfl, h₁, h₂⟩
  | cons x xs ih =>
    intro l₁ l₂ largest h₁ h₂
    rw [maxElementFrom]
    split
    · next hlt =>
      have hall : ∀ y ∈ l₁ ++ largest :: l₂, y < x := by
        intro y hy
        rcases List.mem_append.1 hy with hy | hy
        · exact (h₁ y hy).trans hlt
        · rcases List.mem_cons.1 hy with rfl | hy
          · exact hlt
          · exact (h₂ y hy).trans_lt hlt
      have h := ih (l₁ ++ largest :: l₂) [] x hall fun y hy => (List.not_mem_nil hy).elim
      simpa [add_assoc] using h
    · next hge =>
      have hall : ∀ y ∈ l₂ ++ [x], y ≤ largest := by
        intro y hy
        rcases List.mem_append.1 hy with hy | hy
        · exact h₂ y hy
        · rw [List.mem_singleton.1 hy]
          exact not_lt.1 hge
      have h := ih l₁ (l₂ ++ [x]) largest h₁ hall
      simpa [add_assoc] using h

/-- **`maxElement` is the index of the first maximum.** -/
theorem maxElement_split {xs : List R} (h : xs ≠ []) :
    ∃ l₁ x l₂, xs = l₁ ++ x :: l₂ ∧ l₁.length = maxElement xs ∧ (∀ y ∈ l₁, y < x) ∧
      ∀ y ∈ l₂, y ≤ x := by
  cases xs with
  | nil => exact absurd rfl h
  | cons x xs =>
    exact maxElementFrom_split xs [] [] x (fun y hy => (List.not_mem_nil hy).elim)
      fun y hy => (List.not_mem_nil hy).elim

end Split

section Prefix

variable [AddMonoid R] [LinearOrder R]

/-- Among the prefixes of at most `n` elements the one of `k` elements has the largest sum, and
every longer one a smaller sum. -/
structure Best (xs : List R) (n k : Nat) : Prop where
  le : k ≤ n
  maximal : ∀ j, j ≤ n → (xs.take j).sum ≤ (xs.take k).sum
  longest : ∀ j, j ≤ n → k < j → (xs.take j).sum < (xs.take k).sum

theorem best_zero (xs : List R) : Best xs 0 0 where
  le := Nat.le_refl 0
  maximal j hj := by rw [show j = 0 by omega]
  longest j hj hk := by omega

/-- The next prefix is at least as good: it is the longest best one. -/
theorem Best.take {xs : List R} {n k : Nat} (h : Best xs n k)
    (hge : (xs.take k).sum ≤ (xs.take (n + 1)).sum) : Best xs (n + 1) (n + 1) where
  le := Nat.le_refl _
  maximal j hj := by
    rcases Nat.lt_or_ge n j with hn | hn
    · rw [show j = n + 1 by omega]
    · exact (h.maximal j hn).trans hge
  longest j hj hk := by omega

/-- The next prefix is worse. -/
theorem Best.skip {xs : List R} {n k : Nat} (h : Best xs n k)
    (hlt : (xs.take (n + 1)).sum < (xs.take k).sum) : Best xs (n + 1) k where
  le := by have := h.le; omega
  maximal j hj := by
    rcases Nat.lt_or_ge n j with hn | hn
    · rw [show j = n + 1 by omega]
      exact hlt.le
    · exact h.maximal j hn
  longest j hj hk := by
    rcases Nat.lt_or_ge n j with hn | hn
    · rw [show j = n + 1 by omega]
      exact hlt
    · exact h.longest j hn hk

/-- The scan, having seen the first `i` elements of `all`. -/
theorem best_bestPrefixFrom (all xs : List R) :
    ∀ (kept i : Nat), all.drop i = xs → Best all i kept → i ≤ all.length →
      Best all all.length
        (bestPrefixFrom (all.take kept).sum (all.take i).sum kept i xs) := by
  induction xs with
  | nil =>
    intro kept i hdrop hbest hi
    have hlen : all.length ≤ i := List.drop_eq_nil_iff.1 hdrop
    rw [bestPrefixFrom]
    rwa [show i = all.length by omega] at hbest
  | cons x xs ih =>
    intro kept i hdrop hbest hi
    have hi' : i < all.length := by
      by_contra hge
      rw [List.drop_eq_nil_of_le (by omega)] at hdrop
      cases hdrop
    have hget : all[i]? = some x := by
      have hhead : (all.drop i)[0]? = all[i + 0]? := List.getElem?_drop
      rw [hdrop] at hhead
      simpa using hhead.symm
    have hdrop' : all.drop (i + 1) = xs := by
      rw [← List.tail_drop, hdrop]
      rfl
    have hsum : (all.take i).sum + x = (all.take (i + 1)).sum := by
      rw [List.take_add_one, hget, List.sum_append]
      simp
    rw [bestPrefixFrom, hsum]
    split
    · next hge => exact ih (i + 1) (i + 1) hdrop' (hbest.take hge) hi'
    · next hlt => exact ih kept (i + 1) hdrop' (hbest.skip (not_le.1 hlt)) hi'

/-- **`bestPrefix` keeps the longest prefix with the largest sum.** -/
theorem best_bestPrefix (xs : List R) : Best xs xs.length (bestPrefix xs) :=
  best_bestPrefixFrom xs xs 0 0 rfl (best_zero xs) (Nat.zero_le _)

/-- The kept elements have a sum that is not negative. -/
theorem bestPrefix_nonneg (xs : List R) : 0 ≤ (xs.take (bestPrefix xs)).sum := by
  have h := (best_bestPrefix xs).maximal 0 (Nat.zero_le xs.length)
  rwa [List.take_zero, List.sum_nil] at h

end Prefix

end BestPrefix
