import Mathlib.Data.List.Induction
import Mathlib.Data.List.Nodup
import Mathlib.Logic.Relation

/-!
# Paths that a worklist loop follows

A loop that queues every successor of every node it pops visits a node once for each path to it.
A path is the list of the positions that its nodes have among the successors of their predecessors,
so parallel edges make different paths.

`PathCover` is the ghost of such a run: the paths to the popped and to the pending nodes.  When
nothing is pending, every path has been followed exactly once (`PathCover.countP_eq_one_iff`).
-/

namespace Worklist

variable {N : Type} (succ : N → List N) (root : N)

/-- The node that a path from the root leads to. -/
def follow (p : List Nat) : Option N := p.foldlM (fun n i => (succ n)[i]?) root

/-- The paths that are one edge longer. -/
def extensions (n : N) (p : List Nat) : List (List Nat) :=
  (List.range (succ n).length).map fun i => p ++ [i]

/-- Exactly one path from the root leads to a node of the kind. -/
def UniquePath (P : N → Prop) : Prop := ∃! p, ∃ n, follow succ root p = some n ∧ P n

/-- The paths `done` have been followed to their end, the paths `pending` are next. -/
structure PathCover (done pending : List (List Nat)) : Prop where
  nodup : (done ++ pending).Nodup
  mem_iff : ∀ p, p ∈ done ++ pending ↔ p = [] ∨
    ∃ q ∈ done, ∃ n, follow succ root q = some n ∧ p ∈ extensions succ n q

variable {succ root}

@[simp] theorem follow_nil : follow succ root [] = some root := rfl

theorem follow_concat (p : List Nat) (i : Nat) :
    follow succ root (p ++ [i]) = (follow succ root p).bind fun n => (succ n)[i]? := by
  unfold follow
  rw [List.foldlM_append]
  simp

theorem mem_extensions {n : N} {p q : List Nat} :
    q ∈ extensions succ n p ↔ ∃ i < (succ n).length, q = p ++ [i] := by
  unfold extensions
  simp only [List.mem_map, List.mem_range, eq_comm]

theorem nodup_extensions (n : N) (p : List Nat) : (extensions succ n p).Nodup :=
  List.nodup_range.map fun i j hij => by simpa using hij

/-- The extensions of a path lead to the successors of its end. -/
theorem map_follow_extensions {n : N} {p : List Nat} (hp : follow succ root p = some n) :
    (extensions succ n p).map (follow succ root) = (succ n).map some := by
  unfold extensions
  rw [List.map_map]
  have hi : ∀ i, (follow succ root ∘ fun i => p ++ [i]) i = (succ n)[i]? := by
    intro i
    show follow succ root (p ++ [i]) = _
    rw [follow_concat, hp]
    rfl
  refine List.ext_getElem (by simp) fun i hi₁ hi₂ => ?_
  rw [List.getElem_map, List.getElem_range, hi, List.getElem_map]
  exact List.getElem?_eq_getElem _

/-- A node is the end of a path exactly when it is reached. -/
theorem exists_follow_iff {n : N} :
    (∃ p, follow succ root p = some n) ↔ Relation.ReflTransGen (fun a b => b ∈ succ a) root n := by
  constructor
  · rintro ⟨p, hp⟩
    induction p using List.reverseRecOn generalizing n with
    | nil =>
      cases hp
      exact .refl
    | append_singleton p i ih =>
      rw [follow_concat] at hp
      obtain ⟨m, hm, hi⟩ := Option.bind_eq_some_iff.1 hp
      exact (ih hm).tail (List.mem_of_getElem? hi)
  · intro h
    induction h with
    | refl => exact ⟨[], rfl⟩
    | tail _ hm ih =>
      obtain ⟨p, hp⟩ := ih
      obtain ⟨i, hi⟩ := List.mem_iff_getElem?.1 hm
      exact ⟨p ++ [i], by rw [follow_concat, hp]; exact hi⟩

theorem pathCover_start : PathCover succ root [] [[]] where
  nodup := List.nodup_singleton []
  mem_iff p := by simp

/-- **Step lemma.**  Popping a node and queueing its successors keeps the cover. -/
theorem PathCover.expand {done rest : List (List Nat)} {p : List Nat} {n : N}
    (h : PathCover succ root done (p :: rest)) (hp : follow succ root p = some n) :
    PathCover succ root (done ++ [p]) (rest ++ extensions succ n p) := by
  have hassoc : done ++ [p] ++ (rest ++ extensions succ n p) =
      done ++ p :: rest ++ extensions succ n p := by simp
  have hnew : p ∉ done := fun hmem =>
    (List.nodup_append.1 h.nodup).2.2 p hmem p List.mem_cons_self rfl
  constructor
  · rw [hassoc]
    refine List.nodup_append.2 ⟨h.nodup, nodup_extensions n p, ?_⟩
    rintro q hq _ hext rfl
    -- a path already covered that extends `p` would have `p` among the followed ones
    obtain ⟨i, -, rfl⟩ := mem_extensions.1 hext
    rcases (h.mem_iff _).1 hq with hnil | ⟨q, hqdone, m, -, hqext⟩
    · simp at hnil
    · obtain ⟨j, -, heq⟩ := mem_extensions.1 hqext
      exact hnew ((List.append_singleton_inj.1 heq).1 ▸ hqdone)
  · intro q
    rw [hassoc, List.mem_append, h.mem_iff, or_assoc]
    refine or_congr_right ?_
    constructor
    · rintro (⟨q', hq', hext⟩ | hext)
      · exact ⟨q', List.mem_append_left _ hq', hext⟩
      · exact ⟨p, List.mem_append_right _ (List.mem_singleton_self p), n, hp, hext⟩
    · rintro ⟨q', hq', m, hm, hext⟩
      rcases List.mem_append.1 hq' with hq' | hq'
      · exact .inl ⟨q', hq', m, hm, hext⟩
      · rw [List.mem_singleton] at hq'
        subst hq'
        rw [hp] at hm
        cases hm
        exact .inr hext

/-- Only paths have been followed. -/
theorem PathCover.follow_isSome {done pending : List (List Nat)}
    (h : PathCover succ root done pending) {p : List Nat} (hp : p ∈ done ++ pending) :
    (follow succ root p).isSome = true := by
  rcases (h.mem_iff p).1 hp with rfl | ⟨q, -, n, hq, hext⟩
  · rfl
  · obtain ⟨i, hi, rfl⟩ := mem_extensions.1 hext
    rw [follow_concat, hq, Option.bind_some, List.getElem?_eq_getElem hi]
    rfl

/-- When nothing is pending, every path has been followed. -/
theorem PathCover.mem_done_iff {done : List (List Nat)} (h : PathCover succ root done [])
    (p : List Nat) : p ∈ done ↔ (follow succ root p).isSome = true := by
  have hmem := h.mem_iff
  rw [List.append_nil] at hmem
  constructor
  · intro hp
    exact h.follow_isSome (by rwa [List.append_nil])
  · intro hp
    induction p using List.reverseRecOn with
    | nil => exact (hmem []).2 (.inl rfl)
    | append_singleton p i ih =>
      rw [follow_concat] at hp
      cases hf : follow succ root p with
      | none =>
        rw [hf] at hp
        cases hp
      | some n =>
        rw [hf, Option.bind_some] at hp
        have hi : i < (succ n).length := by simpa using hp
        exact (hmem _).2 (.inr ⟨p, ih (by rw [hf]; rfl), n, hf, mem_extensions.2 ⟨i, hi, rfl⟩⟩)

section Count

variable (P : N → Prop) [DecidablePred P]

/-- The followed paths that lead to a node of the kind. -/
def pathsTo (succ : N → List N) (root : N) (done : List (List Nat)) : Nat :=
  done.countP fun p => (follow succ root p).any fun n => decide (P n)

theorem any_follow_iff {p : List Nat} : ((follow succ root p).any fun n => decide (P n)) = true ↔
    ∃ n, follow succ root p = some n ∧ P n := by
  rw [Option.any_eq_true]
  simp only [decide_eq_true_eq]

theorem pathsTo_concat (done : List (List Nat)) {p : List Nat} {n : N}
    (hp : follow succ root p = some n) :
    pathsTo P succ root (done ++ [p]) = pathsTo P succ root done + if P n then 1 else 0 := by
  unfold pathsTo
  rw [List.countP_append, List.countP_singleton, hp]
  simp

variable {P} {done : List (List Nat)}

/-- **A run visits the nodes of a kind once if exactly one path leads to them.** -/
theorem PathCover.pathsTo_eq_one_iff (h : PathCover succ root done []) :
    pathsTo P succ root done = 1 ↔ UniquePath succ root P := by
  have hnodup : done.Nodup := by
    have hn := h.nodup
    rwa [List.append_nil] at hn
  unfold pathsTo UniquePath
  rw [List.countP_eq_length_filter, List.length_eq_one_iff]
  constructor
  · rintro ⟨p, hp⟩
    have hmem : ∀ q, q = p ↔ q ∈ done ∧ ∃ n, follow succ root q = some n ∧ P n := by
      intro q
      rw [← List.mem_singleton, ← hp, List.mem_filter, any_follow_iff]
    refine ⟨p, ((hmem p).1 rfl).2, fun q hq => (hmem q).2 ⟨?_, hq⟩⟩
    obtain ⟨n, hn, -⟩ := hq
    exact (h.mem_done_iff q).2 (by rw [hn]; rfl)
  · rintro ⟨p, hp, huniq⟩
    obtain ⟨n, hn, -⟩ := id hp
    refine ⟨p, List.perm_singleton.1 ((List.perm_ext_iff_of_nodup (hnodup.filter _)
      (List.nodup_singleton p)).2 fun q => ?_)⟩
    rw [List.mem_filter, any_follow_iff, List.mem_singleton]
    constructor
    · exact fun hq => huniq q hq.2
    · rintro rfl
      exact ⟨(h.mem_done_iff q).2 (by rw [hn]; rfl), hp⟩

theorem PathCover.pathsTo_pos_iff (h : PathCover succ root done []) :
    0 < pathsTo P succ root done ↔
      ∃ n, Relation.ReflTransGen (fun a b => b ∈ succ a) root n ∧ P n := by
  unfold pathsTo
  rw [List.countP_pos_iff]
  constructor
  · rintro ⟨p, -, hp⟩
    obtain ⟨n, hn, hPn⟩ := (any_follow_iff P).1 hp
    exact ⟨n, exists_follow_iff.1 ⟨p, hn⟩, hPn⟩
  · rintro ⟨n, hn, hPn⟩
    obtain ⟨p, hp⟩ := exists_follow_iff.2 hn
    exact ⟨p, (h.mem_done_iff p).2 (by rw [hp]; rfl), (any_follow_iff P).2 ⟨n, hp, hPn⟩⟩

end Count

end Worklist
