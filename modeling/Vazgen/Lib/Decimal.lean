import Mathlib.Algebra.Group.Nat.Defs
import Mathlib.Data.List.Induction
import Mathlib.Data.List.Nodup

/-!
# Two decimal numbers without a separator

`i` and `j` written one behind the other can be read in another way exactly if some digits, without a
leading zero, can be moved from the front of one number to the end of the other
(`digits_eq_iff`).
-/

namespace Decimal

/-! ## Digits -/

/-- Digits behind a positive number are the digits of a larger number. -/
theorem toDigits_append {n : Nat} (hn : 0 < n) (d : Nat) :
    Nat.toDigits 10 n ++ Nat.toDigits 10 d =
      Nat.toDigits 10 (n * 10 ^ (Nat.toDigits 10 d).length + d) := by
  induction d using Nat.strongRecOn with
  | ind d ih =>
    by_cases hd : d < 10
    · rw [Nat.toDigits_append_toDigits (by decide) hn hd, Nat.toDigits_of_lt_base hd,
        List.length_singleton, Nat.pow_one, Nat.mul_comm]
    · have hbase : 10 ≤ d := Nat.le_of_not_lt hd
      have hmod : d % 10 < 10 := Nat.mod_lt d (by decide)
      have hpos : 0 < n * 10 ^ (Nat.toDigits 10 (d / 10)).length + d / 10 := by omega
      rw [Nat.toDigits_of_base_le (by decide) hbase, ← List.append_assoc, ih (d / 10) (by omega),
        ← Nat.toDigits_of_lt_base hmod, Nat.toDigits_append_toDigits (by decide) hpos hmod,
        List.length_append, Nat.toDigits_of_lt_base hmod, List.length_singleton, Nat.pow_succ]
      congr 1
      rw [Nat.mul_add, Nat.add_assoc, Nat.div_add_mod, ← Nat.mul_assoc, Nat.mul_comm 10,
        Nat.mul_assoc, Nat.mul_comm 10]

theorem toDigits_inj {m n : Nat} (h : Nat.toDigits 10 m = Nat.toDigits 10 n) : m = n := by
  have := congrArg (fun ds => Nat.ofDigitChars 10 ds 0) h
  simpa using this

/-- A positive number has no leading zero. -/
theorem head?_toDigits_ne {n : Nat} (hn : 0 < n) : (Nat.toDigits 10 n).head? ≠ some '0' := by
  induction n using Nat.strongRecOn with
  | ind n ih =>
    by_cases hlt : n < 10
    · rw [Nat.toDigits_of_lt_base hlt, List.head?_cons, ne_eq, Option.some_inj,
        Nat.digitChar_eq_zero]
      exact Nat.ne_of_gt hn
    · rw [Nat.toDigits_of_base_le (by decide) (Nat.le_of_not_lt hlt),
        List.head?_append_of_ne_nil _ Nat.toDigits_ne_nil]
      exact ih (n / 10) (by omega) (by omega)

theorem exists_digitChar {c : Char} (hc : c.isDigit = true) : ∃ k, k < 10 ∧ Nat.digitChar k = c := by
  obtain ⟨hl, hr⟩ := Char.isDigit_iff_toNat.1 hc
  have h0 : '0'.toNat = 48 := rfl
  have h9 : '9'.toNat = 57 := rfl
  have hlt : c.toNat - 48 < 10 := by omega
  refine ⟨c.toNat - 48, hlt, Char.toNat_inj.1 ?_⟩
  rw [Nat.toNat_digitChar_of_lt_ten hlt]
  omega

/-- Digits without a leading zero are those of a positive number. -/
theorem exists_toDigits {ds : List Char} (hne : ds ≠ []) (hdigit : ∀ c ∈ ds, c.isDigit = true)
    (hhead : ds.head? ≠ some '0') : ∃ a, 0 < a ∧ Nat.toDigits 10 a = ds := by
  induction ds using List.reverseRecOn with
  | nil => exact absurd rfl hne
  | append_singleton ds c ih =>
    obtain ⟨k, hk, rfl⟩ := exists_digitChar (hdigit c (List.mem_append_right _ List.mem_cons_self))
    by_cases hds : ds = []
    · subst hds
      rw [List.nil_append, List.head?_cons, ne_eq, Option.some_inj, Nat.digitChar_eq_zero] at hhead
      exact ⟨k, Nat.pos_of_ne_zero hhead, Nat.toDigits_of_lt_base hk⟩
    · rw [List.head?_append_of_ne_nil _ hds] at hhead
      obtain ⟨a, ha, rfl⟩ := ih hds (fun c hc => hdigit c (List.mem_append_left _ hc)) hhead
      refine ⟨10 * a + k, by omega, ?_⟩
      rw [← Nat.toDigits_append_toDigits (by decide) ha hk, Nat.toDigits_of_lt_base hk]

/-! ## Two numbers -/

/-- Digits of a positive number move from the front of the second number to the end of the first. -/
def Shifted (p q : Nat × Nat) : Prop :=
  ∃ a, 0 < p.1 ∧ 0 < a ∧ q.1 = p.1 * 10 ^ (Nat.toDigits 10 a).length + a ∧
    p.2 = a * 10 ^ (Nat.toDigits 10 q.2).length + q.2

/-- The two numbers one behind the other. -/
def digits (p : Nat × Nat) : List Char := Nat.toDigits 10 p.1 ++ Nat.toDigits 10 p.2

theorem digits_of_shifted {p q : Nat × Nat} (h : Shifted p q) : digits p = digits q := by
  obtain ⟨a, hp, ha, hq, hp2⟩ := h
  unfold digits
  rw [hq, hp2, ← toDigits_append hp, ← toDigits_append ha, List.append_assoc]

/-- What stands between the two first numbers is moved. -/
theorem shifted_of_append {p q : Nat × Nat} {ds : List Char} (hne : ds ≠ [])
    (hq : Nat.toDigits 10 q.1 = Nat.toDigits 10 p.1 ++ ds)
    (hp : Nat.toDigits 10 p.2 = ds ++ Nat.toDigits 10 q.2) : Shifted p q := by
  have hpos : 0 < p.1 := by
    by_contra h0
    rw [Nat.eq_zero_of_not_pos h0, Nat.toDigits_zero] at hq
    -- only 0 starts with a zero, and then nothing stands behind it
    by_cases hq0 : q.1 = 0
    · rw [hq0, Nat.toDigits_zero] at hq
      exact hne (List.cons.inj hq).2.symm
    · exact head?_toDigits_ne (Nat.pos_of_ne_zero hq0) (by rw [hq]; rfl)
  have hpos2 : 0 < p.2 := by
    by_contra h0
    have hlen := congrArg List.length hp
    rw [Nat.eq_zero_of_not_pos h0, Nat.toDigits_zero, List.length_append] at hlen
    have h1 := List.length_pos_iff.2 hne
    have h2 := Nat.length_toDigits_pos (b := 10) (n := q.2)
    simp only [List.length_singleton] at hlen
    omega
  have hhead : ds.head? ≠ some '0' := by
    have := head?_toDigits_ne hpos2
    rwa [hp, List.head?_append_of_ne_nil _ hne] at this
  have hdigit : ∀ c ∈ ds, c.isDigit = true := fun c hc =>
    Nat.isDigit_of_mem_toDigits (b := 10) (n := q.1) (by decide) (by decide)
      (hq ▸ List.mem_append_right _ hc)
  obtain ⟨a, ha, rfl⟩ := exists_toDigits hne hdigit hhead
  refine ⟨a, hpos, ha, toDigits_inj ?_, toDigits_inj ?_⟩
  · rw [hq, toDigits_append hpos]
  · rw [hp, toDigits_append ha]

/-- **When two pairs of numbers are written alike.** -/
theorem digits_eq_iff {p q : Nat × Nat} :
    digits p = digits q ↔ p = q ∨ Shifted p q ∨ Shifted q p := by
  constructor
  · intro h
    rcases List.append_eq_append_iff.1 h with ⟨ds, hq, hp⟩ | ⟨ds, hp, hq⟩
    · by_cases hne : ds = []
      · subst hne
        rw [List.append_nil] at hq
        rw [List.nil_append] at hp
        exact .inl (Prod.ext (toDigits_inj hq.symm) (toDigits_inj hp))
      · exact .inr (.inl (shifted_of_append hne hq hp))
    · by_cases hne : ds = []
      · subst hne
        rw [List.append_nil] at hp
        rw [List.nil_append] at hq
        exact .inl (Prod.ext (toDigits_inj hp) (toDigits_inj hq.symm))
      · exact .inr (.inr (shifted_of_append hne hp hq))
  · rintro (rfl | h | h)
    · rfl
    · exact digits_of_shifted h
    · exact (digits_of_shifted h).symm

/-- Different pairs are written differently exactly if none of them is another one shifted. -/
theorem nodup_digits_iff {ps : List (Nat × Nat)} (hps : ps.Nodup) :
    (ps.map digits).Nodup ↔ ∀ p ∈ ps, ∀ q ∈ ps, ¬ Shifted p q := by
  rw [List.nodup_map_iff_inj_on hps]
  constructor
  · intro h p hp q hq hshift
    have heq := h p hp q hq (digits_of_shifted hshift)
    subst heq
    -- a shift makes the first number larger
    obtain ⟨a, hpos, ha, hfirst, -⟩ := hshift
    have hle := Nat.le_mul_of_pos_right p.1 (Nat.pow_pos (n := (Nat.toDigits 10 a).length)
      (show 0 < 10 by decide))
    omega
  · intro h p hp q hq heq
    rcases digits_eq_iff.1 heq with heq | hshift | hshift
    · exact heq
    · exact absurd hshift (h p hp q hq)
    · exact absurd hshift (h q hq p hp)

end Decimal
