import Mathlib.Data.List.Basic

/-!
# The fields of a text

`fields sep cs` are the longest parts of `cs` without separators.  A word is its own only field
(`fields_eq_singleton`), and every field is a word (`isWord_of_mem_fields`).
-/

namespace Fields

variable {α : Type} {sep : α → Bool} {c : α} {cs w : List α}

/-- What is left of the pieces between the separators when the empty ones are dropped. -/
def fields (sep : α → Bool) (cs : List α) : List (List α) :=
  (cs.splitOnP sep).filter fun piece => !piece.isEmpty

/-- Some letters, none of them a separator. -/
def IsWord (sep : α → Bool) (w : List α) : Prop := w ≠ [] ∧ ∀ c ∈ w, sep c = false

instance [DecidableEq α] (sep : α → Bool) : DecidablePred (IsWord sep) :=
  fun _ => inferInstanceAs (Decidable (_ ∧ _))

theorem fields_nil (sep : α → Bool) : fields sep [] = [] := by simp [fields]

theorem fields_append_cons (hc : sep c = true) (as bs : List α) :
    fields sep (as ++ c :: bs) = fields sep as ++ fields sep bs := by
  unfold fields
  rw [List.splitOnP_append_cons as bs hc, List.filter_append]

theorem fields_cons (hc : sep c = true) (cs : List α) : fields sep (c :: cs) = fields sep cs := by
  have h := fields_append_cons hc [] cs
  rwa [fields_nil, List.nil_append] at h

theorem fields_eq_singleton (hw : IsWord sep w) : fields sep w = [w] := by
  unfold fields
  rw [List.splitOnP_eq_singleton hw.2]
  simp [hw.1]

/-- No piece has a separator in it. -/
theorem eq_false_of_mem_splitOnP {piece : List α} (h : piece ∈ cs.splitOnP sep) :
    ∀ c ∈ piece, sep c = false := by
  induction cs generalizing piece with
  | nil =>
    rw [List.splitOnP_nil, List.mem_singleton] at h
    subst h
    nofun
  | cons c cs ih =>
    rw [List.splitOnP_cons_eq_if_modifyHead] at h
    split at h
    · rcases List.mem_cons.1 h with rfl | h
      · nofun
      · exact ih h
    · next hc =>
      obtain ⟨first, rest, hsplit⟩ := List.exists_cons_of_ne_nil (List.splitOnP_ne_nil sep cs)
      rw [hsplit] at h ih
      rcases List.mem_cons.1 h with rfl | h
      · exact List.forall_mem_cons.2 ⟨Bool.not_eq_true _ ▸ hc, ih List.mem_cons_self⟩
      · exact ih (List.mem_cons_of_mem _ h)

theorem isWord_of_mem_fields (h : w ∈ fields sep cs) : IsWord sep w := by
  obtain ⟨hpiece, hne⟩ := List.mem_filter.1 h
  exact ⟨by simpa using hne, eq_false_of_mem_splitOnP hpiece⟩

end Fields
