import Mathlib.Data.Fintype.EquivFin
import Mathlib.Logic.Relation
import Mathlib.Order.WellFounded

/-!
# Recursion over a finite graph

A recursion that follows the edges of a finite graph ends from a vertex exactly when no cycle can
be reached from it (`acc_iff_no_cycle`).
-/

namespace Cycles

variable {α : Type} {r : α → α → Prop} {a : α}

theorem transGen_flip {b : α} (h : Relation.TransGen r a b) :
    Relation.TransGen (flip r) b a :=
  Relation.transGen_swap.2 h

/-- Nothing accessible stands on a cycle. -/
theorem not_transGen_of_acc (h : Acc (flip r) a) : ¬ Relation.TransGen r a a := by
  have hirr : ∀ b, Acc (Relation.TransGen (flip r)) b → ¬ Relation.TransGen (flip r) b b := by
    intro b hb
    induction hb with
    | intro b _ ih => exact fun hcycle => ih b hcycle hcycle
  exact fun hcycle => hirr a h.transGen (transGen_flip hcycle)

theorem acc_of_reflTransGen {b : α} (h : Acc (flip r) a) (hab : Relation.ReflTransGen r a b) :
    Acc (flip r) b := by
  induction hab with
  | refl => exact h
  | tail _ hbc ih => exact ih.inv hbc

theorem wellFounded_of_no_cycle [Finite α] (h : ∀ b, ¬ Relation.TransGen r b b) :
    WellFounded (flip r) := by
  have hirr : Std.Irrefl (Relation.TransGen (flip r)) :=
    ⟨fun b hb => h b (Relation.transGen_swap.1 hb)⟩
  exact Subrelation.wf Relation.TransGen.single
    (Finite.wellFounded_of_trans_of_irrefl (Relation.TransGen (flip r)))

/-- **Accessibility on a finite graph.** -/
theorem acc_iff_no_cycle [Finite α] :
    Acc (flip r) a ↔ ∀ b, Relation.ReflTransGen r a b → ¬ Relation.TransGen r b b := by
  constructor
  · exact fun h b hab => not_transGen_of_acc (acc_of_reflTransGen h hab)
  · intro h
    -- the edges out of what is reached from `a`
    let edge : α → α → Prop := fun b c => Relation.ReflTransGen r a b ∧ r b c
    have hno : ∀ b, ¬ Relation.TransGen edge b b := fun b hb => by
      obtain ⟨c, hbc, -⟩ := Relation.TransGen.head'_iff.1 hb
      exact h b hbc.1 (hb.lift id fun _ _ hxy => hxy.2)
    have hwf := wellFounded_of_no_cycle hno
    have hacc : ∀ b, Relation.ReflTransGen r a b → Acc (flip r) b := by
      intro b
      induction b using hwf.induction with
      | _ b ih => exact fun hab => ⟨b, fun c hbc => ih c ⟨hab, hbc⟩ (hab.tail hbc)⟩
    exact hacc a .refl

end Cycles
