import Mathlib.Data.List.Dedup
import Mathlib.Data.List.Induction
import Mathlib.Data.List.Perm.Basic

/-!
# Maps filled from a list with a running counter

`fill` inserts an entry for every element of a list, made from the element and its position, which
counts from `1`.  As with `std::unordered_map::insert` the first entry for a key stays, while the
counter runs on; a map is the list of its entries in the order of insertion.
-/

namespace NumberedMap

variable {α β κ : Type} [DecidableEq κ]

def insertFirst (table : List (κ × β)) (k : κ) (b : β) : List (κ × β) :=
  if k ∈ table.map (·.1) then table else table ++ [(k, b)]

def fill (key : α → κ) (entry : α → Nat → β) (l : List α) : List (κ × β) :=
  (l.zipIdx 1).foldl (fun table x => insertFirst table (key x.1) (entry x.1 x.2)) []

variable {key : α → κ} {entry : α → Nat → β}

theorem fill_concat (l : List α) (a : α) :
    fill key entry (l ++ [a]) =
      insertFirst (fill key entry l) (key a) (entry a (l.length + 1)) := by
  unfold fill
  rw [List.zipIdx_append, List.foldl_append, List.zipIdx_singleton, Nat.add_comm]
  rfl

theorem mem_keys_insertFirst {table : List (κ × β)} {k x : κ} {b : β} :
    x ∈ (insertFirst table k b).map (·.1) ↔ x ∈ table.map (·.1) ∨ x = k := by
  unfold insertFirst
  split
  · next h => exact ⟨.inl, fun hx => hx.elim id fun hx => hx ▸ h⟩
  · rw [List.map_append, List.mem_append, List.map_singleton, List.mem_singleton]

theorem mem_keys_fill {l : List α} {k : κ} :
    k ∈ (fill key entry l).map (·.1) ↔ k ∈ l.map key := by
  induction l using List.reverseRecOn with
  | nil => simp [fill]
  | append_singleton l a ih =>
    rw [fill_concat, mem_keys_insertFirst, ih, List.map_append, List.mem_append,
      List.map_singleton, List.mem_singleton]

theorem nodup_keys_fill (l : List α) : ((fill key entry l).map (·.1)).Nodup := by
  induction l using List.reverseRecOn with
  | nil => exact List.nodup_nil
  | append_singleton l a ih =>
    rw [fill_concat, insertFirst]
    split
    · exact ih
    · next h =>
      rw [List.map_append, List.map_singleton]
      exact ih.append (List.nodup_singleton _) (List.disjoint_singleton.2 h)

/-- The map has one entry for every distinct key. -/
theorem length_fill (l : List α) : (fill key entry l).length = (l.map key).dedup.length := by
  rw [← List.length_map (f := (·.1))]
  refine List.Perm.length_eq ((List.perm_ext_iff_of_nodup (nodup_keys_fill l)
    (List.nodup_dedup _)).2 fun k => ?_)
  rw [mem_keys_fill, List.mem_dedup]

/-- The entries: every element whose key does not occur before it, with its position. -/
theorem mem_fill_iff {l : List α} {e : κ × β} :
    e ∈ fill key entry l ↔ ∃ before a after, l = before ++ a :: after ∧ key a ∉ before.map key ∧
      e = (key a, entry a (before.length + 1)) := by
  induction l using List.reverseRecOn with
  | nil => simp [fill]
  | append_singleton l a ih =>
    have hold : e ∈ fill key entry l → ∃ before b after, l ++ [a] = before ++ b :: after ∧
        key b ∉ before.map key ∧ e = (key b, entry b (before.length + 1)) := by
      intro h
      obtain ⟨before, b, after, rfl, hb, he⟩ := ih.1 h
      exact ⟨before, b, after ++ [a], by simp, hb, he⟩
    simp only [fill_concat, insertFirst, mem_keys_fill]
    constructor
    · intro h
      split at h
      · exact hold h
      · next ha =>
        rcases List.mem_append.1 h with h | h
        · exact hold h
        · exact ⟨l, a, [], rfl, ha, List.mem_singleton.1 h⟩
    · rintro ⟨before, b, after, hl, hb, rfl⟩
      rcases List.eq_nil_or_concat after with rfl | ⟨after, c, rfl⟩
      · obtain ⟨rfl, hab⟩ := List.append_inj' hl rfl
        cases hab
        rw [if_neg hb]
        exact List.mem_append_right _ (List.mem_singleton_self _)
      · rw [List.concat_eq_append, ← List.cons_append, ← List.append_assoc] at hl
        obtain ⟨rfl, -⟩ := List.append_inj' hl rfl
        have hmem := ih.2 ⟨before, b, after, rfl, hb, rfl⟩
        split
        · exact hmem
        · exact List.mem_append_left _ hmem

/-- Entries that do not need the counter. -/
theorem foldl_insertFirst (key : α → κ) (entry : α → β) (l : List α) :
    l.foldl (fun table a => insertFirst table (key a) (entry a)) [] =
      fill key (fun a _ => entry a) l := by
  unfold fill
  rw [← List.foldl_map (f := Prod.fst)
    (g := fun table a => insertFirst table (key a) (entry a)), List.zipIdx_map_fst]

/-- What tells the positions apart tells the entries apart. -/
theorem nodup_map_fill {γ : Type} {g : β → γ}
    (hg : ∀ a b i j, g (entry a i) = g (entry b j) → i = j) (l : List α) :
    ((fill key entry l).map fun e => g e.2).Nodup := by
  induction l using List.reverseRecOn with
  | nil => exact List.nodup_nil
  | append_singleton l a ih =>
    rw [fill_concat, insertFirst]
    split
    · exact ih
    · rw [List.map_append, List.map_singleton]
      refine ih.append (List.nodup_singleton _) (List.disjoint_singleton.2 fun h => ?_)
      obtain ⟨e, he, hge⟩ := List.mem_map.1 h
      obtain ⟨before, b, after, rfl, -, rfl⟩ := mem_fill_iff.1 he
      have hpos := hg b a _ _ hge
      rw [List.length_append, List.length_cons] at hpos
      omega

omit [DecidableEq κ] in
theorem lookup_eq_some [BEq κ] [LawfulBEq κ] {table : List (κ × β)} (h : (table.map (·.1)).Nodup)
    {k : κ} {b : β} (hmem : (k, b) ∈ table) : table.lookup k = some b := by
  obtain ⟨before, after, rfl⟩ := List.append_of_mem hmem
  refine List.lookup_eq_some_iff.2 ⟨before, after, rfl, fun e he => ?_⟩
  rw [List.map_append, List.map_cons] at h
  have hdisj := List.disjoint_of_nodup_append h (List.mem_map_of_mem he)
  exact bne_iff_ne.2 fun hk => hdisj (by rw [← hk]; exact List.mem_cons_self)

end NumberedMap
