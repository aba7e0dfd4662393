import Mathlib.Data.List.Basic

/-!
# Declaration before use

A text is read from its beginning to its end as declarations and uses.  With `scope` declared before
it starts,

    DeclaredBeforeUse Resolves scope events ↔
      every use resolves to a declaration of `scope` or to an earlier one   (declaredBeforeUse_iff)
-/

namespace Scoping

inductive Event (Decl Ref : Type) where
  | declare (d : Decl)
  | use (r : Ref)

variable {Decl Ref : Type}

def declared : List (Event Decl Ref) → List Decl
  | [] => []
  | .declare d :: events => d :: declared events
  | .use _ :: events => declared events

def used : List (Event Decl Ref) → List Ref
  | [] => []
  | .declare _ :: events => used events
  | .use r :: events => r :: used events

/-- Every use resolves to what is declared when it is reached. -/
def DeclaredBeforeUse (Resolves : Ref → Decl → Prop) : List Decl → List (Event Decl Ref) → Prop
  | _, [] => True
  | scope, .declare d :: events => DeclaredBeforeUse Resolves (scope ++ [d]) events
  | scope, .use r :: events =>
    (∃ d ∈ scope, Resolves r d) ∧ DeclaredBeforeUse Resolves scope events

instance decidableDeclaredBeforeUse (Resolves : Ref → Decl → Prop) [∀ r d, Decidable (Resolves r d)] :
    ∀ scope events, Decidable (DeclaredBeforeUse Resolves scope events)
  | _, [] => .isTrue trivial
  | scope, .declare d :: events => decidableDeclaredBeforeUse Resolves (scope ++ [d]) events
  | scope, .use _ :: events =>
    have := decidableDeclaredBeforeUse Resolves scope events
    inferInstanceAs (Decidable (_ ∧ _))

theorem mem_used {r : Ref} {l : List (Event Decl Ref)} : r ∈ used l ↔ .use r ∈ l := by
  induction l with
  | nil => simp [used]
  | cons event l ih => cases event <;> simp [used, ih]

/-! ## Texts one after the other -/

@[simp]
theorem declared_append (l l' : List (Event Decl Ref)) :
    declared (l ++ l') = declared l ++ declared l' := by
  induction l with
  | nil => rfl
  | cons event l ih => cases event <;> simp [declared, ih]

@[simp]
theorem used_append (l l' : List (Event Decl Ref)) : used (l ++ l') = used l ++ used l' := by
  induction l with
  | nil => rfl
  | cons event l ih => cases event <;> simp [used, ih]

@[simp]
theorem declared_map_use (l : List Ref) :
    declared (l.map fun r => (.use r : Event Decl Ref)) = [] := by
  induction l with
  | nil => rfl
  | cons r l ih => simpa [declared] using ih

@[simp]
theorem used_map_use (l : List Ref) : used (l.map fun r => (.use r : Event Decl Ref)) = l := by
  induction l with
  | nil => rfl
  | cons r l ih => simp [used, ih]

theorem declared_flatMap {α : Type} (f : α → List (Event Decl Ref)) (l : List α) :
    declared (l.flatMap f) = l.flatMap fun a => declared (f a) := by
  induction l with
  | nil => rfl
  | cons a l ih => rw [List.flatMap_cons, declared_append, ih, List.flatMap_cons]

theorem used_flatMap {α : Type} (f : α → List (Event Decl Ref)) (l : List α) :
    used (l.flatMap f) = l.flatMap fun a => used (f a) := by
  induction l with
  | nil => rfl
  | cons a l ih => rw [List.flatMap_cons, used_append, ih, List.flatMap_cons]

section Resolve

variable {Resolves : Ref → Decl → Prop}

theorem declaredBeforeUse_append {scope : List Decl} {l l' : List (Event Decl Ref)} :
    DeclaredBeforeUse Resolves scope (l ++ l') ↔
      DeclaredBeforeUse Resolves scope l ∧
        DeclaredBeforeUse Resolves (scope ++ declared l) l' := by
  induction l generalizing scope with
  | nil => simp [DeclaredBeforeUse, declared]
  | cons event l ih =>
    cases event with
    | declare d =>
      simp only [List.cons_append, DeclaredBeforeUse, declared]
      rw [ih, List.append_assoc]
      rfl
    | use r =>
      simp only [List.cons_append, DeclaredBeforeUse, declared]
      rw [ih, and_assoc]

theorem declaredBeforeUse_iff {scope : List Decl} {l : List (Event Decl Ref)} :
    DeclaredBeforeUse Resolves scope l ↔
      ∀ pre r post, l = pre ++ .use r :: post → ∃ d ∈ scope ++ declared pre, Resolves r d := by
  constructor
  · rintro h pre r post rfl
    exact (declaredBeforeUse_append.1 h).2.1
  · intro h
    induction l generalizing scope with
    | nil => trivial
    | cons event l ih =>
      have htail : ∀ pre r post, l = pre ++ .use r :: post →
          ∃ d ∈ scope ++ declared (event :: pre), Resolves r d := fun pre r post hl =>
        h (event :: pre) r post (by rw [hl, List.cons_append])
      cases event with
      | declare d =>
        refine ih fun pre r post hl => ?_
        simpa [declared] using htail pre r post hl
      | use r =>
        refine ⟨?_, ih htail⟩
        simpa [declared] using h [] r l rfl

theorem DeclaredBeforeUse.mono {scope scope' : List Decl} (h : scope ⊆ scope')
    {l : List (Event Decl Ref)} (hl : DeclaredBeforeUse Resolves scope l) :
    DeclaredBeforeUse Resolves scope' l := by
  rw [declaredBeforeUse_iff] at hl ⊢
  intro pre r post hsplit
  obtain ⟨d, hd, hresolves⟩ := hl pre r post hsplit
  refine ⟨d, List.mem_append.2 ?_, hresolves⟩
  exact (List.mem_append.1 hd).imp_left fun hd => h hd

/-- Uses that all resolve from the start can stand in any order. -/
theorem declaredBeforeUse_of_used {scope : List Decl} {l : List (Event Decl Ref)}
    (h : ∀ r ∈ used l, ∃ d ∈ scope, Resolves r d) : DeclaredBeforeUse Resolves scope l := by
  rw [declaredBeforeUse_iff]
  rintro pre r post rfl
  have hr : r ∈ used (pre ++ .use r :: post) :=
    mem_used.2 (List.mem_append_right _ List.mem_cons_self)
  obtain ⟨d, hd, hresolves⟩ := h r hr
  exact ⟨d, List.mem_append_left _ hd, hresolves⟩

theorem declaredBeforeUse_flatMap {α : Type} {scope : List Decl} {f : α → List (Event Decl Ref)}
    {l : List α} (h : ∀ a ∈ l, DeclaredBeforeUse Resolves scope (f a)) :
    DeclaredBeforeUse Resolves scope (l.flatMap f) := by
  induction l generalizing scope with
  | nil => trivial
  | cons a l ih =>
    rw [List.flatMap_cons, declaredBeforeUse_append]
    refine ⟨h a List.mem_cons_self, ih fun b hb => ?_⟩
    exact (h b (List.mem_cons_of_mem a hb)).mono (List.subset_append_left _ _)

/-- In particular every use resolves to what is declared at the end. -/
theorem DeclaredBeforeUse.exists_of_mem_used {scope : List Decl} {l : List (Event Decl Ref)}
    (hl : DeclaredBeforeUse Resolves scope l) {r : Ref} (hr : r ∈ used l) :
    ∃ d ∈ scope ++ declared l, Resolves r d := by
  obtain ⟨pre, post, rfl⟩ := List.append_of_mem (mem_used.1 hr)
  obtain ⟨d, hd, hresolves⟩ := declaredBeforeUse_iff.1 hl pre r post rfl
  rw [declared_append, ← List.append_assoc]
  exact ⟨d, List.mem_append_left _ hd, hresolves⟩

end Resolve

end Scoping
