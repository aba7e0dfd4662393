import Mathlib.Algebra.BigOperators.Group.List.Basic
import Mathlib.Data.List.Perm.Basic

/-!
# Running totals

`runningTotals f a bs` pairs each element with the total so far, itself included.  Such a total is the
element's own number in every order exactly if there is no other element, or all numbers are 0
(`eq_own_iff`).
-/

namespace RunningTotals

variable {β K : Type}

def runningTotals [Add K] (f : β → K) (a : K) : List β → List (β × K)
  | [] => []
  | b :: bs => (b, a + f b) :: runningTotals f (a + f b) bs

theorem eq_own_of_zero [AddMonoid K] {f : β → K} {bs : List β} (h : ∀ b ∈ bs, f b = 0) :
    ∀ p ∈ runningTotals f 0 bs, p.2 = f p.1 := by
  induction bs with
  | nil => nofun
  | cons b bs ih =>
    obtain ⟨hb, hbs⟩ := List.forall_mem_cons.1 h
    rw [runningTotals, hb, add_zero]
    exact List.forall_mem_cons.2 ⟨hb.symm, ih hbs⟩

theorem eq_own_iff [AddGroup K] {f : β → K} {bs : List β} :
    (∀ bs' : List β, bs'.Perm bs → ∀ p ∈ runningTotals f 0 bs', p.2 = f p.1) ↔
      bs.length ≤ 1 ∨ ∀ b ∈ bs, f b = 0 := by
  constructor
  · intro h
    by_contra hcond
    rw [not_or, Nat.not_le] at hcond
    obtain ⟨hlen, hzero⟩ := hcond
    refine hzero fun b hb => ?_
    -- `b` first and another element behind it
    obtain ⟨rest, hperm⟩ : ∃ rest, bs.Perm (b :: rest) :=
      ⟨_, (List.append_of_mem hb).choose_spec.choose_spec ▸ List.perm_middle⟩
    cases rest with
    | nil =>
      rw [hperm.length_eq] at hlen
      exact absurd hlen (Nat.lt_irrefl 1)
    | cons next rest =>
      have hnext := h _ hperm.symm (next, 0 + f b + f next) (List.mem_cons_of_mem _ List.mem_cons_self)
      rwa [zero_add, add_eq_right] at hnext
  · rintro (hlen | hzero) bs' hperm
    · cases bs' with
      | nil => nofun
      | cons b rest =>
        have hrest : rest = [] := by
          rw [← hperm.length_eq, List.length_cons] at hlen
          exact List.eq_nil_of_length_eq_zero (by omega)
        subst hrest
        rintro p hp
        rw [List.mem_singleton.1 hp, zero_add]
    · exact eq_own_of_zero fun b hb => hzero b (hperm.mem_iff.1 hb)

end RunningTotals
