import Mathlib.Data.Finmap
import Mathlib.Order.MinMax
import Mathlib.Tactic.Tauto

/-!
# Finite maps that are only inserted into, and only lowered

`insertNew` is `std::unordered_map::insert`: an existing entry stays.  `insertMin` lowers an
existing entry to the smaller value.  `mergeMin` lowers a map by all entries of another: in the
order `Below`, where more and smaller entries are higher, it is the join (`mergeMin_below_iff`).
-/

namespace MinMap

variable {α β : Type} [DecidableEq α]

/-- Insert unless the key is there. -/
def insertNew (a : α) (b : β) (m : Finmap fun _ : α => β) : Finmap fun _ : α => β :=
  if a ∈ m then m else m.insert a b

theorem mem_insertNew {a x : α} {b : β} {m : Finmap fun _ : α => β} :
    x ∈ insertNew a b m ↔ x = a ∨ x ∈ m := by
  unfold insertNew
  split
  · next h =>
    constructor
    · exact .inr
    · rintro (rfl | hx)
      · exact h
      · exact hx
  · exact Finmap.mem_insert

theorem keys_insertNew (a : α) (b : β) (m : Finmap fun _ : α => β) :
    (insertNew a b m).keys = insert a m.keys := by
  ext x
  rw [Finset.mem_insert, Finmap.mem_keys, Finmap.mem_keys, mem_insertNew]

theorem lookup_insertNew_of_notMem {a : α} {m : Finmap fun _ : α => β} (h : a ∉ m) (b : β) :
    (insertNew a b m).lookup a = some b := by
  rw [insertNew, if_neg h, Finmap.lookup_insert]

section Min

variable [LinearOrder β]

/-- Insert, or lower the entry that is there. -/
def insertMin (a : α) (b : β) (m : Finmap fun _ : α => β) : Finmap fun _ : α => β :=
  match m.lookup a with
  | none => m.insert a b
  | some c => m.insert a (min b c)

theorem lookup_insertMin_self (a : α) (b : β) (m : Finmap fun _ : α => β) :
    (insertMin a b m).lookup a = some (((m.lookup a).map (min b)).getD b) := by
  unfold insertMin
  split
  · next h => rw [h, Finmap.lookup_insert]; rfl
  · next c h => rw [h, Finmap.lookup_insert]; rfl

theorem lookup_insertMin_of_ne {a x : α} (h : x ≠ a) (b : β) (m : Finmap fun _ : α => β) :
    (insertMin a b m).lookup x = m.lookup x := by
  unfold insertMin
  split <;> exact Finmap.lookup_insert_of_ne m h

theorem mem_insertMin {a x : α} {b : β} {m : Finmap fun _ : α => β} :
    x ∈ insertMin a b m ↔ x = a ∨ x ∈ m := by
  unfold insertMin
  split <;> exact Finmap.mem_insert

theorem insertMin_comm (m : Finmap fun _ : α => β) (a₁ : α) (b₁ : β) (a₂ : α) (b₂ : β) :
    insertMin a₂ b₂ (insertMin a₁ b₁ m) = insertMin a₁ b₁ (insertMin a₂ b₂ m) := by
  apply Finmap.ext_lookup
  intro x
  by_cases h : a₁ = a₂
  · subst h
    by_cases hx : x = a₁
    · subst hx
      simp only [lookup_insertMin_self]
      cases m.lookup x with
      | none => simp [min_comm]
      | some c => simp [min_left_comm]
    · simp only [lookup_insertMin_of_ne hx]
  · by_cases hx : x = a₁
    · subst hx
      rw [lookup_insertMin_of_ne h, lookup_insertMin_self, lookup_insertMin_self,
        lookup_insertMin_of_ne h]
    · by_cases hx2 : x = a₂
      · subst hx2
        rw [lookup_insertMin_of_ne hx, lookup_insertMin_self, lookup_insertMin_self,
          lookup_insertMin_of_ne hx]
      · simp only [lookup_insertMin_of_ne hx, lookup_insertMin_of_ne hx2]

/-- Lower a map by every entry of another one. -/
def mergeMin (m m' : Finmap fun _ : α => β) : Finmap fun _ : α => β :=
  m'.foldl (fun m a b => insertMin a b m) insertMin_comm m

theorem mem_mergeMin {x : α} {m m' : Finmap fun _ : α => β} :
    x ∈ mergeMin m m' ↔ x ∈ m ∨ x ∈ m' := by
  induction m' using Finmap.induction_on with
  | H a =>
    have hfold : ∀ (entries : List (Sigma fun _ : α => β)) (m : Finmap fun _ : α => β),
        x ∈ entries.foldl (fun m e => insertMin e.1 e.2 m) m ↔ x ∈ m ∨ x ∈ entries.keys := by
      intro entries
      induction entries with
      | nil => simp
      | cons e entries ih =>
        intro m
        rw [List.foldl_cons, ih, mem_insertMin, List.keys_cons, List.mem_cons]
        tauto
    exact hfold a.entries m

/-! ## The order of maps -/

/-- `m'` has the entries of `m`, with the same value or a smaller one. -/
def Below (m m' : Finmap fun _ : α => β) : Prop :=
  ∀ a b, m.lookup a = some b → ∃ c ≤ b, m'.lookup a = some c

variable {m m' k : Finmap fun _ : α => β}

theorem Below.refl (m : Finmap fun _ : α => β) : Below m m := fun _ b h => ⟨b, le_rfl, h⟩

theorem Below.trans (h : Below m m') (h' : Below m' k) : Below m k := by
  intro a b hb
  obtain ⟨c, hcb, hc⟩ := h a b hb
  obtain ⟨d, hdc, hd⟩ := h' a c hc
  exact ⟨d, hdc.trans hcb, hd⟩

theorem Below.mem (h : Below m m') {a : α} (ha : a ∈ m) : a ∈ m' := by
  obtain ⟨b, hb⟩ := Finmap.mem_iff.1 ha
  obtain ⟨c, -, hc⟩ := h a b hb
  exact Finmap.mem_of_lookup_eq_some hc

theorem below_insertNew (a : α) (b : β) (m : Finmap fun _ : α => β) : Below m (insertNew a b m) := by
  intro x c hx
  unfold insertNew
  split
  · exact ⟨c, le_rfl, hx⟩
  · next ha =>
    have hxa : x ≠ a := by
      rintro rfl
      exact ha (Finmap.mem_of_lookup_eq_some hx)
    exact ⟨c, le_rfl, by rw [Finmap.lookup_insert_of_ne m hxa, hx]⟩

theorem Below.antisymm (h : Below m m') (h' : Below m' m) : m = m' := by
  apply Finmap.ext_lookup
  intro a
  cases hm : m.lookup a with
  | none =>
    have ha : a ∉ m' := fun ha => Finmap.lookup_eq_none.1 hm (h'.mem ha)
    exact (Finmap.lookup_eq_none.2 ha).symm
  | some b =>
    obtain ⟨c, hcb, hc⟩ := h a b hm
    obtain ⟨d, hdc, hd⟩ := h' a c hc
    rw [hm] at hd
    cases hd
    rw [hc, le_antisymm hdc hcb]

theorem insertMin_below_iff {a : α} {b : β} :
    Below (insertMin a b m) k ↔ Below m k ∧ ∃ c ≤ b, k.lookup a = some c := by
  constructor
  · intro h
    obtain ⟨c, hcb, hc⟩ := h a _ (lookup_insertMin_self a b m)
    refine ⟨fun x d hx => ?_, c, ?_, hc⟩
    · by_cases hxa : x = a
      · subst hxa
        rw [hx] at hcb
        exact ⟨c, hcb.trans (min_le_right b d), hc⟩
      · exact h x d (by rw [lookup_insertMin_of_ne hxa, hx])
    · cases hm : m.lookup a with
      | none => simpa [hm] using hcb
      | some d =>
        rw [hm] at hcb
        exact hcb.trans (min_le_left b d)
  · rintro ⟨h, c, hcb, hc⟩ x d hx
    by_cases hxa : x = a
    · subst hxa
      rw [lookup_insertMin_self] at hx
      cases hm : m.lookup x with
      | none =>
        rw [hm] at hx
        cases hx
        exact ⟨c, hcb, hc⟩
      | some e =>
        rw [hm] at hx
        cases hx
        obtain ⟨e', he', hx'⟩ := h x e hm
        rw [hc] at hx'
        cases hx'
        exact ⟨c, le_min hcb he', hc⟩
    · rw [lookup_insertMin_of_ne hxa] at hx
      exact h x d hx

theorem foldl_insertMin_below_iff (entries : List (Sigma fun _ : α => β)) :
    Below (entries.foldl (fun m e => insertMin e.1 e.2 m) m) k ↔
      Below m k ∧ ∀ e ∈ entries, ∃ c ≤ e.2, k.lookup e.1 = some c := by
  induction entries generalizing m with
  | nil => simp
  | cons e entries ih => rw [List.foldl_cons, ih, insertMin_below_iff, List.forall_mem_cons, and_assoc]

/-- **Merging is the join.** -/
theorem mergeMin_below_iff : Below (mergeMin m m') k ↔ Below m k ∧ Below m' k := by
  induction m' using Finmap.induction_on with
  | H l =>
    have hentries : Below l.toFinmap k ↔ ∀ e ∈ l.entries, ∃ c ≤ e.2, k.lookup e.1 = some c := by
      constructor
      · exact fun h e he => h e.1 e.2 (AList.mem_lookup_iff.2 he)
      · exact fun h a b hb => h ⟨a, b⟩ (AList.mem_lookup_iff.1 hb)
    rw [hentries]
    exact foldl_insertMin_below_iff l.entries

end Min

end MinMap
