import Mathlib.Algebra.GroupWithZero.Nat
import Mathlib.Logic.Relation
import Mathlib.Data.Finset.Card
import Mathlib.Data.Finset.Option
import Mathlib.Data.Finset.Union
import Mathlib.Data.Fintype.Basic
import Mathlib.Order.WellFounded
import Mathlib.Data.Fintype.EquivFin
import Mathlib.Data.Prod.Lex
import Vazgen.Lib.Cycles

/-!
# Worklist loops

`whileSome step` runs a loop body until it answers `none` (the loop condition fails).  `Ends` says
that it stops after finitely many iterations.

`Marking` is a worklist loop over a graph that enters only some of its nodes in a set of processed
keys.  A popped node is dropped (`stop`), dropped because its key is already marked, or expanded:
its successors are queued.  Nothing marks a node without a key, so it is expanded at every visit.

* `Cover`: at the end every node reached from the start has been popped (`Cover.reach_popped`),
  provided that no two nodes share a key (`Cover.step`).
* The loop ends exactly when no cycle of nodes without a key is reached (`ends_of_no_cycle`,
  `no_cycle_of_ends`).
-/

namespace Worklist

/-! ## Loops -/

section Loops

variable {σ τ : Type}

/-- `while` with a loop body that answers `none` when the loop condition fails; `none` when the
fuel is used up. -/
def whileSome (step : σ → Option σ) : Nat → σ → Option σ
  | 0, _ => none
  | fuel + 1, s =>
    match step s with
    | none => some s
    | some s' => whileSome step fuel s'

/-- The loop stops after finitely many iterations. -/
def Ends (step : σ → Option σ) (s : σ) : Prop := ∃ fuel t, whileSome step fuel s = some t

/-- The states that the loop runs through from `s`. -/
def Reaches (step : σ → Option σ) (s t : σ) : Prop :=
  Relation.ReflTransGen (fun a b => step a = some b) s t

theorem whileSome_succ_of_some {step : σ → Option σ} {s s' : σ} (h : step s = some s')
    (fuel : Nat) : whileSome step (fuel + 1) s = whileSome step fuel s' := by
  simp [whileSome, h]

theorem whileSome_succ_of_none {step : σ → Option σ} {s : σ} (h : step s = none) (fuel : Nat) :
    whileSome step (fuel + 1) s = some s := by
  simp [whileSome, h]

/-- **Run rule.**  What every iteration keeps holds at the end, where the loop condition fails.
The step may use that the loop ends from the state it starts in. -/
theorem whileSome_induct {step : σ → Option σ} {P : σ → Prop}
    (hstep : ∀ s s', P s → Ends step s → step s = some s' → P s') :
    ∀ (fuel : Nat) (s t : σ), P s → whileSome step fuel s = some t → P t ∧ step t = none := by
  intro fuel
  induction fuel with
  | zero => intro s t _ h; cases h
  | succ fuel ih =>
    intro s t hs h
    cases hst : step s with
    | none =>
      rw [whileSome_succ_of_none hst] at h
      cases h
      exact ⟨hs, hst⟩
    | some s' =>
      have hs' := hstep s s' hs ⟨fuel + 1, t, h⟩ hst
      rw [whileSome_succ_of_some hst] at h
      exact ih s' t hs' h

/-- **Reachability rule.**  What every iteration keeps holds in every state the loop runs through. -/
theorem Reaches.induct {step : σ → Option σ} {P : σ → Prop} {s t : σ} (h : Reaches step s t)
    (hs : P s) (hstep : ∀ a b, P a → step a = some b → P b) : P t := by
  induction h with
  | refl => exact hs
  | tail _ hst ih => exact hstep _ _ ih hst

/-- A loop that ends runs through its last state. -/
theorem reaches_of_whileSome {step : σ → Option σ} {fuel : Nat} {s t : σ}
    (h : whileSome step fuel s = some t) : Reaches step s t :=
  (whileSome_induct (P := Reaches step s) (fun _ _ hs _ hst => hs.tail hst) fuel s t .refl h).1

/-- `p` holds in every state of the loop, which ends within the fuel. -/
def alongRun (step : σ → Option σ) (p : σ → Bool) : Nat → σ → Bool
  | 0, _ => false
  | fuel + 1, s =>
    p s &&
      match step s with
      | none => true
      | some s' => alongRun step p fuel s'

theorem of_alongRun {step : σ → Option σ} {p : σ → Bool} {fuel : Nat} {s t : σ}
    (h : alongRun step p fuel s = true) (hr : Reaches step s t) : p t = true := by
  induction hr using Relation.ReflTransGen.head_induction_on generalizing fuel with
  | refl =>
    cases fuel with
    | zero => cases h
    | succ fuel => exact (Bool.and_eq_true_iff.1 h).1
  | head hst _ ih =>
    cases fuel with
    | zero => cases h
    | succ fuel =>
      have hrest := (Bool.and_eq_true_iff.1 h).2
      rw [hst] at hrest
      exact ih hrest

theorem whileSome_mono {step : σ → Option σ} :
    ∀ (fuel : Nat) (s t : σ), whileSome step fuel s = some t →
      ∀ more, whileSome step (fuel + more) s = some t := by
  intro fuel
  induction fuel with
  | zero => intro s t h; cases h
  | succ fuel ih =>
    intro s t h more
    rw [Nat.add_right_comm]
    cases hst : step s with
    | none =>
      rw [whileSome_succ_of_none hst] at h ⊢
      exact h
    | some s' =>
      rw [whileSome_succ_of_some hst] at h ⊢
      exact ih s' t h more

/-- The fuel has no influence on the result. -/
theorem whileSome_unique {step : σ → Option σ} {fuel fuel' : Nat} {s t t' : σ}
    (h : whileSome step fuel s = some t) (h' : whileSome step fuel' s = some t') : t = t' := by
  have hmore := whileSome_mono fuel s t h fuel'
  have hmore' := whileSome_mono fuel' s t' h' fuel
  rw [Nat.add_comm, hmore] at hmore'
  exact Option.some.inj hmore'

/-- A loop whose control depends on a projection of the state only, in the states that its
iterations keep to, runs as long as the loop on the projection. -/
theorem whileSome_map_of {step : σ → Option σ} {step' : τ → Option τ} {π : σ → τ} {P : σ → Prop}
    (hP : ∀ s s', P s → step s = some s' → P s')
    (h : ∀ s, P s → (step s).map π = step' (π s)) :
    ∀ (fuel : Nat) (s : σ), P s → (whileSome step fuel s).map π = whileSome step' fuel (π s) := by
  intro fuel
  induction fuel with
  | zero => intro s _; rfl
  | succ fuel ih =>
    intro s hPs
    have hs := h s hPs
    cases hst : step s with
    | none =>
      rw [hst] at hs
      rw [whileSome_succ_of_none hst, whileSome_succ_of_none hs.symm]
      rfl
    | some s' =>
      rw [hst] at hs
      rw [whileSome_succ_of_some hst, whileSome_succ_of_some hs.symm]
      exact ih s' (hP s s' hPs hst)

theorem ends_map_of {step : σ → Option σ} {step' : τ → Option τ} {π : σ → τ} {P : σ → Prop}
    (hP : ∀ s s', P s → step s = some s' → P s')
    (h : ∀ s, P s → (step s).map π = step' (π s)) {s : σ} (hs : P s) :
    Ends step s ↔ Ends step' (π s) := by
  constructor
  · rintro ⟨fuel, t, ht⟩
    refine ⟨fuel, π t, ?_⟩
    rw [← whileSome_map_of hP h fuel s hs, ht]
    rfl
  · rintro ⟨fuel, t, ht⟩
    rw [← whileSome_map_of hP h fuel s hs] at ht
    obtain ⟨u, hu, -⟩ := Option.map_eq_some_iff.1 ht
    exact ⟨fuel, u, hu⟩

/-- A loop whose control depends on a projection of the state only runs as long as the loop on
the projection. -/
theorem whileSome_map {step : σ → Option σ} {step' : τ → Option τ} {π : σ → τ}
    (h : ∀ s, (step s).map π = step' (π s)) (fuel : Nat) (s : σ) :
    (whileSome step fuel s).map π = whileSome step' fuel (π s) :=
  whileSome_map_of (P := fun _ => True) (fun _ _ _ _ => trivial) (fun s _ => h s) fuel s trivial

theorem ends_map {step : σ → Option σ} {step' : τ → Option τ} {π : σ → τ}
    (h : ∀ s, (step s).map π = step' (π s)) (s : σ) : Ends step s ↔ Ends step' (π s) :=
  ends_map_of (P := fun _ => True) (fun _ _ _ _ => trivial) (fun s _ => h s) trivial

/-- A loop that runs through a state from which it ends, ends. -/
theorem ends_of_reaches {step : σ → Option σ} {s t : σ} (h : Reaches step s t)
    (ht : Ends step t) : Ends step s := by
  induction h using Relation.ReflTransGen.head_induction_on with
  | refl => exact ht
  | head hst _ ih =>
    obtain ⟨fuel, u, hu⟩ := ih
    exact ⟨fuel + 1, u, by rw [whileSome_succ_of_some hst]; exact hu⟩

/-- **Termination rule.**  A loop that keeps `P` and decreases a well-founded measure ends. -/
theorem ends_of_measure {α : Type} {lt : α → α → Prop} (hwf : WellFounded lt) (μ : σ → α)
    {step : σ → Option σ} {P : σ → Prop} (hP : ∀ s s', P s → step s = some s' → P s')
    (hμ : ∀ s s', P s → step s = some s' → lt (μ s') (μ s)) (s : σ) (hs : P s) :
    Ends step s := by
  induction s using (InvImage.wf μ hwf).induction with
  | _ s ih =>
    cases hst : step s with
    | none => exact ⟨1, s, whileSome_succ_of_none hst 0⟩
    | some s' =>
      obtain ⟨fuel, t, ht⟩ := ih s' (hμ s s' hs hst) (hP s s' hs hst)
      exact ⟨fuel + 1, t, by rw [whileSome_succ_of_some hst]; exact ht⟩

/-- A loop that decreases a number ends within that many iterations. -/
theorem whileSome_of_measure (μ : σ → Nat) {step : σ → Option σ}
    (hμ : ∀ s s', step s = some s' → μ s' < μ s) :
    ∀ (fuel : Nat) (s : σ), μ s < fuel → ∃ t, whileSome step fuel s = some t := by
  intro fuel
  induction fuel with
  | zero => intro s h; omega
  | succ fuel ih =>
    intro s h
    cases hst : step s with
    | none => exact ⟨s, whileSome_succ_of_none hst fuel⟩
    | some s' =>
      rw [whileSome_succ_of_some hst]
      have := hμ s s' hst
      exact ih s' (by omega)

/-! A fold over a list whose body runs with fuel. -/

section Folds

variable {α : Type} {f : Nat → σ → α → Option σ}

/-- A fold that ends still ends in the same state when its body ends in more cases. -/
theorem foldlM_of_le {g g' : σ → α → Option σ} {l : List α}
    (hle : ∀ s a t, g s a = some t → g' s a = some t) {s t : σ} (h : l.foldlM g s = some t) :
    l.foldlM g' s = some t := by
  induction l generalizing s with
  | nil => exact h
  | cons a l ih =>
    rw [List.foldlM_cons] at h ⊢
    obtain ⟨s', hs', h⟩ := Option.bind_eq_some_iff.1 h
    exact Option.bind_eq_some_iff.2 ⟨s', hle s a s' hs', ih h⟩

theorem foldlM_mono
    (hmono : ∀ fuel more s a t, f fuel s a = some t → f (fuel + more) s a = some t)
    {fuel : Nat} (more : Nat) {l : List α} {s t : σ} (h : l.foldlM (f fuel) s = some t) :
    l.foldlM (f (fuel + more)) s = some t :=
  foldlM_of_le (hmono fuel more) h

/-- A fold whose body always ends. -/
theorem isSome_foldlM {g : σ → α → Option σ} {l : List α}
    (h : ∀ a ∈ l, ∀ s, (g s a).isSome = true) (s : σ) : (l.foldlM g s).isSome = true := by
  induction l generalizing s with
  | nil => rfl
  | cons a l ih =>
    rw [List.foldlM_cons]
    obtain ⟨s', hs'⟩ := Option.isSome_iff_exists.1 (h a List.mem_cons_self s)
    rw [hs']
    exact ih (fun b hb => h b (List.mem_cons_of_mem a hb)) s'

/-- The fuel that is enough for each element is enough for all. -/
theorem exists_fuel {P : Nat → α → Prop} (hmono : ∀ fuel more a, P fuel a → P (fuel + more) a)
    {l : List α} (h : ∀ a ∈ l, ∃ fuel, P fuel a) : ∃ fuel, ∀ a ∈ l, P fuel a := by
  induction l with
  | nil => exact ⟨0, fun a ha => (List.not_mem_nil ha).elim⟩
  | cons a l ih =>
    obtain ⟨m, hm⟩ := h a List.mem_cons_self
    obtain ⟨n, hn⟩ := ih fun b hb => h b (List.mem_cons_of_mem a hb)
    refine ⟨m + n, fun b hb => ?_⟩
    rcases List.mem_cons.1 hb with rfl | hb
    · exact hmono m n b hm
    · rw [Nat.add_comm]
      exact hmono n m b (hn b hb)

/-- When the body ends on every element, with enough fuel the fold ends. -/
theorem exists_foldlM
    (hmono : ∀ fuel more s a t, f fuel s a = some t → f (fuel + more) s a = some t)
    {l : List α} (h : ∀ a ∈ l, ∀ s, ∃ fuel t, f fuel s a = some t) (s : σ) :
    ∃ fuel t, l.foldlM (f fuel) s = some t := by
  induction l generalizing s with
  | nil => exact ⟨0, s, rfl⟩
  | cons a l ih =>
    obtain ⟨m, s', hs'⟩ := h a List.mem_cons_self s
    obtain ⟨n, t, ht⟩ := ih (fun b hb => h b (List.mem_cons_of_mem a hb)) s'
    refine ⟨m + n, t, ?_⟩
    rw [List.foldlM_cons]
    refine Option.bind_eq_some_iff.2 ⟨s', hmono m n s a s' hs', ?_⟩
    have hmore := foldlM_mono hmono m ht
    rwa [Nat.add_comm] at hmore

/-- What the body keeps on every element, the fold keeps; what it shows of an element, holds of all
of them. -/
theorem foldlM_forall {g : σ → α → Option σ} {P : σ → Prop} {Q : α → Prop} {l : List α}
    (hstep : ∀ s a s', a ∈ l → P s → g s a = some s' → Q a ∧ P s') {s t : σ} (hs : P s)
    (h : l.foldlM g s = some t) : (∀ a ∈ l, Q a) ∧ P t := by
  induction l generalizing s with
  | nil =>
    cases h
    exact ⟨fun a ha => (List.not_mem_nil ha).elim, hs⟩
  | cons a l ih =>
    rw [List.foldlM_cons] at h
    obtain ⟨s', hs', h⟩ := Option.bind_eq_some_iff.1 h
    obtain ⟨ha, hs'⟩ := hstep s a s' List.mem_cons_self hs hs'
    obtain ⟨hl, ht⟩ := ih (fun s b s' hb => hstep s b s' (List.mem_cons_of_mem a hb)) hs' h
    exact ⟨List.forall_mem_cons.2 ⟨ha, hl⟩, ht⟩

theorem foldlM_induct {g : σ → α → Option σ} {P : σ → Prop} {l : List α}
    (hstep : ∀ s a s', a ∈ l → P s → g s a = some s' → P s') {s t : σ} (hs : P s)
    (h : l.foldlM g s = some t) : P t :=
  (foldlM_forall (Q := fun _ => True) (fun s a s' ha hs hg => ⟨trivial, hstep s a s' ha hs hg⟩)
    hs h).2

/-- A fold that ends has run its body to the end on every element. -/
theorem exists_of_foldlM {fuel : Nat} {l : List α} {s t : σ} (h : l.foldlM (f fuel) s = some t) :
    ∀ a ∈ l, ∃ s' t', f fuel s' a = some t' := by
  induction l generalizing s with
  | nil => intro a ha; cases ha
  | cons b l ih =>
    rw [List.foldlM_cons] at h
    obtain ⟨s', hs', h⟩ := Option.bind_eq_some_iff.1 h
    intro a ha
    rcases List.mem_cons.1 ha with rfl | ha
    · exact ⟨s, s', hs'⟩
    · exact ih h a ha

end Folds

end Loops

/-! ## Marking worklists -/

/-- What a worklist loop does with a node: drop it, the key it is marked by, the nodes it queues. -/
structure Marking (N K : Type) where
  stop : N → Bool
  key : N → Option K
  succ : N → List N

/-- The queue, the node to be popped first, and the keys marked so far. -/
structure Queue (N K : Type) where
  pending : List N
  marked : Finset K

namespace Marking

variable {N K : Type} (c : Marking N K)

/-- One iteration: pop a node and drop or expand it. -/
def step [DecidableEq K] (s : Queue N K) : Option (Queue N K) :=
  match s.pending with
  | [] => none
  | n :: rest =>
    if c.stop n then some { s with pending := rest }
    else
      match c.key n with
      | none => some { s with pending := rest ++ c.succ n }
      | some k =>
        if k ∈ s.marked then some { s with pending := rest }
        else some { pending := rest ++ c.succ n, marked := insert k s.marked }

/-- The node that an iteration expands, if it expands the node it pops. -/
def visiting [DecidableEq K] (s : Queue N K) : Option N :=
  match s.pending with
  | [] => none
  | n :: _ =>
    if c.stop n then none
    else
      match c.key n with
      | none => some n
      | some k => if k ∈ s.marked then none else some n

/-- The edges followed after an iteration, when `followed` have been before it. -/
def follow [DecidableEq K] (s : Queue N K) (followed : N → N → Prop) (n m : N) : Prop :=
  followed n m ∨ (c.visiting s = some n ∧ m ∈ c.succ n)

/-- One iteration of a loop that puts what it finds at the nodes it expands in front of a list. -/
def collectStep [DecidableEq K] {α : Type} (found : N → List α) (x : Queue N K × List α) :
    Option (Queue N K × List α) :=
  (c.step x.1).map fun s => (s, ((c.visiting x.1).toList.flatMap found) ++ x.2)

/-- Some iteration of the loop from `s` expands `n`. -/
def Visits [DecidableEq K] (s : Queue N K) (n : N) : Prop :=
  ∃ t, Reaches c.step s t ∧ c.visiting t = some n

/-- The nodes reached from `start` along the successors of nodes that are not dropped. -/
inductive Reach (start : List N) : N → Prop
  | start {n : N} : n ∈ start → Reach start n
  | next {n m : N} : Reach start n → c.stop n = false → m ∈ c.succ n → Reach start m

/-- A node that is expanded at every visit. -/
def Unmarked (n : N) : Prop := c.stop n = false ∧ c.key n = none

/-- An edge out of a node that is expanded at every visit. -/
def UnmarkedEdge (n m : N) : Prop := c.Unmarked n ∧ m ∈ c.succ n

/-- No two nodes of `start`'s reach that the loop may mark share a key. -/
def KeysDistinct (start : List N) : Prop :=
  ∀ n m k, c.Reach start n → c.Reach start m → c.stop n = false → c.stop m = false →
    c.key n = some k → c.key m = some k → n = m

/-- What one iteration can do. -/
theorem step_cases [DecidableEq K] {s s' : Queue N K} (h : c.step s = some s') :
    ∃ n rest, s.pending = n :: rest ∧
      ((c.stop n = true ∧ s' = { s with pending := rest }) ∨
       (c.stop n = false ∧ c.key n = none ∧ s' = { s with pending := rest ++ c.succ n }) ∨
       (∃ k, c.stop n = false ∧ c.key n = some k ∧ k ∈ s.marked ∧ s' = { s with pending := rest }) ∨
       (∃ k, c.stop n = false ∧ c.key n = some k ∧ k ∉ s.marked ∧
         s' = { pending := rest ++ c.succ n, marked := insert k s.marked })) := by
  unfold step at h
  split at h
  · cases h
  · next n rest hp =>
    refine ⟨n, rest, hp, ?_⟩
    split at h
    · next hstop => exact .inl ⟨hstop, by simpa using h.symm⟩
    · next hstop =>
      rw [Bool.not_eq_true] at hstop
      split at h
      · next hk => exact .inr (.inl ⟨hstop, hk, by simpa using h.symm⟩)
      · next k hk =>
        split at h
        · next hm => exact .inr (.inr (.inl ⟨k, hstop, hk, hm, by simpa using h.symm⟩))
        · next hm => exact .inr (.inr (.inr ⟨k, hstop, hk, hm, by simpa using h.symm⟩))

/-- Marked keys stay marked. -/
theorem marked_subset_of_step [DecidableEq K] {s s' : Queue N K} (h : c.step s = some s') :
    s.marked ⊆ s'.marked := by
  obtain ⟨n, rest, -, ⟨-, rfl⟩ | ⟨-, -, rfl⟩ | ⟨k, -, -, -, rfl⟩ | ⟨k, -, -, -, rfl⟩⟩ :=
    c.step_cases h
  · exact Finset.Subset.refl _
  · exact Finset.Subset.refl _
  · exact Finset.Subset.refl _
  · exact Finset.subset_insert k s.marked

/-- A node that is popped and neither dropped nor expanded has a marked key. -/
theorem exists_marked_of_visiting [DecidableEq K] {s : Queue N K} {n : N} {rest : List N}
    (hp : s.pending = n :: rest) (hv : c.visiting s = none) (hstop : c.stop n = false) :
    ∃ k ∈ s.marked, c.key n = some k := by
  unfold visiting at hv
  rw [hp] at hv
  dsimp only at hv
  rw [if_neg (by rw [hstop]; decide)] at hv
  split at hv
  · cases hv
  · next k hk =>
    split at hv
    · next hm => exact ⟨k, hm, hk⟩
    · cases hv

/-- A node that is expanded has no marked key. -/
theorem notMem_marked_of_visiting [DecidableEq K] {s : Queue N K} {n : N} {k : K}
    (hv : c.visiting s = some n) (hk : c.key n = some k) : k ∉ s.marked := by
  unfold visiting at hv
  split at hv
  · cases hv
  · split at hv
    · cases hv
    · split at hv
      · next hnone =>
        cases hv
        cases hnone.symm.trans hk
      · next k' hk' =>
        split at hv
        · cases hv
        · next hm =>
          cases hv
          cases hk'.symm.trans hk
          exact hm

theorem step_eq_none [DecidableEq K] {s : Queue N K} (h : c.step s = none) : s.pending = [] := by
  unfold step at h
  split at h
  · assumption
  · split at h
    · cases h
    · split at h
      · cases h
      · split at h <;> cases h

/-! ## Completeness: everything reached is popped -/

/-- The loop from `start` has popped the nodes `D` (a ghost of the run). -/
structure Cover (start : List N) (D : Set N) (s : Queue N K) : Prop where
  start_mem : ∀ n ∈ start, n ∈ D ∨ n ∈ s.pending
  succ_mem : ∀ n ∈ D, c.stop n = false → ∀ m ∈ c.succ n, m ∈ D ∨ m ∈ s.pending
  pending_reach : ∀ n ∈ s.pending, c.Reach start n
  popped_reach : ∀ n ∈ D, c.Reach start n
  marked_popped : ∀ k ∈ s.marked, ∃ n ∈ D, c.stop n = false ∧ c.key n = some k

theorem cover_start (start : List N) : c.Cover start ∅ { pending := start, marked := ∅ } where
  start_mem n hn := .inr hn
  succ_mem n hn := hn.elim
  pending_reach n hn := .start hn
  popped_reach n hn := hn.elim
  marked_popped k hk := by simp at hk

/-- Popping a node that is dropped, or whose key is marked, keeps the cover. -/
theorem Cover.drop {c : Marking N K} {start : List N} {D : Set N} {s : Queue N K} {n : N}
    {rest : List N} (h : c.Cover start D s) (hp : s.pending = n :: rest)
    (hn : c.stop n = true ∨ n ∈ D) : c.Cover start (insert n D) { s with pending := rest } := by
  have hmem : ∀ m, m ∈ s.pending → m ∈ insert n D ∨ m ∈ rest := by
    intro m hm
    rw [hp, List.mem_cons] at hm
    exact hm.imp (fun e => .inl e) id
  refine ⟨fun m hm => ?_, fun a ha hs m hm => ?_, fun m hm => ?_, fun m hm => ?_, fun k hk => ?_⟩
  · exact (h.start_mem m hm).elim (fun hd => .inl (.inr hd)) (hmem m)
  · have haD : a ∈ D := by
      rcases ha with rfl | ha
      · rcases hn with hn | hn
        · rw [hn] at hs; cases hs
        · exact hn
      · exact ha
    exact (h.succ_mem a haD hs m hm).elim (fun hd => .inl (.inr hd)) (hmem m)
  · exact h.pending_reach m (by rw [hp]; exact List.mem_cons_of_mem n hm)
  · rcases hm with rfl | hm
    · exact h.pending_reach m (by rw [hp]; exact List.mem_cons_self)
    · exact h.popped_reach m hm
  · obtain ⟨a, ha, h1, h2⟩ := h.marked_popped k hk
    exact ⟨a, .inr ha, h1, h2⟩

/-- Popping a node and queueing its successors keeps the cover. -/
theorem Cover.expand {c : Marking N K} {start : List N} {D : Set N} {s : Queue N K} {n : N}
    {rest : List N} {mk : Finset K} (h : c.Cover start D s) (hp : s.pending = n :: rest)
    (hs : c.stop n = false)
    (hmk : ∀ k ∈ mk, k ∈ s.marked ∨ c.key n = some k) :
    c.Cover start (insert n D) { pending := rest ++ c.succ n, marked := mk } := by
  have hmem : ∀ m, m ∈ s.pending → m ∈ insert n D ∨ m ∈ rest ++ c.succ n := by
    intro m hm
    rw [hp, List.mem_cons] at hm
    exact hm.imp (fun e => .inl e) (fun e => List.mem_append_left _ e)
  have hn : c.Reach start n := h.pending_reach n (by rw [hp]; exact List.mem_cons_self)
  refine ⟨fun m hm => ?_, fun a ha has m hm => ?_, fun m hm => ?_, fun m hm => ?_, fun k hk => ?_⟩
  · exact (h.start_mem m hm).elim (fun hd => .inl (.inr hd)) (hmem m)
  · rcases ha with rfl | ha
    · exact .inr (List.mem_append_right _ hm)
    · exact (h.succ_mem a ha has m hm).elim (fun hd => .inl (.inr hd)) (hmem m)
  · rcases List.mem_append.1 hm with hm | hm
    · exact h.pending_reach m (by rw [hp]; exact List.mem_cons_of_mem n hm)
    · exact .next hn hs hm
  · rcases hm with rfl | hm
    · exact hn
    · exact h.popped_reach m hm
  · rcases hmk k hk with hk | hk
    · obtain ⟨a, ha, h1, h2⟩ := h.marked_popped k hk
      exact ⟨a, .inr ha, h1, h2⟩
    · exact ⟨n, .inl rfl, hs, hk⟩

/-- A pending node whose key is marked has been popped before: keys are distinct. -/
theorem Cover.mem_of_marked {c : Marking N K} {start : List N} (hd : c.KeysDistinct start)
    {D : Set N} {s : Queue N K} (h : c.Cover start D s) {n : N} {k : K} (hn : n ∈ s.pending)
    (hs : c.stop n = false) (hk : c.key n = some k) (hm : k ∈ s.marked) : n ∈ D := by
  obtain ⟨a, ha, has, hak⟩ := h.marked_popped k hm
  have : a = n := hd a n k (h.popped_reach a ha) (h.pending_reach n hn) has hs hak hk
  exact this ▸ ha

/-- **Step lemma.**  Each iteration adds the popped node to the cover. -/
theorem Cover.step [DecidableEq K] {c : Marking N K} {start : List N}
    (hd : c.KeysDistinct start) {D : Set N} {s s' : Queue N K} (h : c.Cover start D s)
    (hst : c.step s = some s') :
    ∃ n rest, s.pending = n :: rest ∧ c.Cover start (insert n D) s' := by
  obtain ⟨n, rest, hp, hcase⟩ := c.step_cases hst
  refine ⟨n, rest, hp, ?_⟩
  rcases hcase with ⟨hs, rfl⟩ | ⟨hs, hk, rfl⟩ | ⟨k, hs, hk, hm, rfl⟩ | ⟨k, hs, hk, hm, rfl⟩
  · exact h.drop hp (.inl hs)
  · exact h.expand hp hs (fun k hk => .inl hk)
  · exact h.drop hp (.inr (h.mem_of_marked hd (by rw [hp]; exact List.mem_cons_self) hs hk hm))
  · refine h.expand hp hs (fun j hj => ?_)
    rcases Finset.mem_insert.1 hj with rfl | hj
    · exact .inr hk
    · exact .inl hj

/-- When nothing is pending, everything reached has been popped. -/
theorem Cover.reach_popped {c : Marking N K} {start : List N} {D : Set N} {s : Queue N K}
    (h : c.Cover start D s) (hp : s.pending = []) {n : N} (hn : c.Reach start n) : n ∈ D := by
  have hno : ∀ m, m ∉ s.pending := by rw [hp]; exact fun m => List.not_mem_nil
  induction hn with
  | start hm => exact (h.start_mem _ hm).resolve_right (hno _)
  | next _ hs hm ih => exact (h.succ_mem _ ih hs _ hm).resolve_right (hno _)

/-! ## Loops that mark nothing -/

/-- When no node is dropped, the nodes reached are those at the end of a path. -/
theorem reach_singleton_iff {c : Marking N K} (hstop : ∀ n, c.stop n = false) {root n : N} :
    c.Reach [root] n ↔ Relation.ReflTransGen (fun a b => b ∈ c.succ a) root n := by
  constructor
  · intro h
    induction h with
    | start hn =>
      rw [List.mem_singleton] at hn
      rw [hn]
    | next _ _ hm ih => exact ih.tail hm
  · intro h
    induction h with
    | refl => exact .start (List.mem_singleton_self root)
    | tail _ hm ih => exact .next ih (hstop _) hm

theorem step_of_unmarked [DecidableEq K] {c : Marking N K} {n : N} (hn : c.Unmarked n)
    {s : Queue N K} {rest : List N} (hp : s.pending = n :: rest) :
    c.step s = some { s with pending := rest ++ c.succ n } := by
  unfold step
  rw [hp]
  dsimp only
  rw [if_neg (by rw [hn.1]; decide), hn.2]

/-- The node of a loop that expands every node it pops comes to the front, with only reached nodes
pending behind it. -/
theorem exists_front [DecidableEq K] {c : Marking N K} {start : List N}
    (hu : ∀ n, c.Reach start n → c.Unmarked n) {n : N} :
    ∀ (before : List N) (s : Queue N K) (rest : List N), (∀ m ∈ s.pending, c.Reach start m) →
      s.pending = before ++ n :: rest →
      ∃ t rest', Reaches c.step s t ∧ t.pending = n :: rest' ∧
        ∀ m ∈ t.pending, c.Reach start m := by
  intro before
  induction before with
  | nil => exact fun s rest hs hp => ⟨s, rest, .refl, hp, hs⟩
  | cons m before ih =>
    intro s rest hs hp
    have hm : c.Reach start m := hs m (by rw [hp]; exact List.mem_cons_self)
    have hst := step_of_unmarked (hu m hm) hp
    have hpending : ∀ k ∈ before ++ n :: rest ++ c.succ m, c.Reach start k := by
      intro k hk
      rcases List.mem_append.1 hk with hk | hk
      · exact hs k (by rw [hp]; exact List.mem_cons_of_mem m hk)
      · exact .next hm (hu m hm).1 hk
    obtain ⟨t, rest', ht, hfront, hreach⟩ := ih
      { s with pending := before ++ n :: rest ++ c.succ m } (rest ++ c.succ m) hpending
      (List.append_assoc _ _ _)
    exact ⟨t, rest', .head hst ht, hfront, hreach⟩

/-- **A loop that expands every node it pops visits everything reached.** -/
theorem visits_of_reach [DecidableEq K] {c : Marking N K} {start : List N}
    (hu : ∀ n, c.Reach start n → c.Unmarked n) {n : N} (hn : c.Reach start n) :
    ∃ t rest, Reaches c.step { pending := start, marked := ∅ } t ∧ t.pending = n :: rest ∧
      ∀ m ∈ t.pending, c.Reach start m := by
  induction hn with
  | start hmem =>
    obtain ⟨before, rest, rfl⟩ := List.append_of_mem hmem
    exact exists_front hu before _ rest (fun m hm => .start hm) rfl
  | @next n m hn hstop hm ih =>
    obtain ⟨s, rest, hs, hp, hreach⟩ := ih
    have hst := step_of_unmarked (hu n hn) hp
    obtain ⟨before, behind, hsplit⟩ := List.append_of_mem hm
    have hpending : ∀ k ∈ rest ++ c.succ n, c.Reach start k := by
      intro k hk
      rcases List.mem_append.1 hk with hk | hk
      · exact hreach k (by rw [hp]; exact List.mem_cons_of_mem n hk)
      · exact .next hn hstop hk
    have hsplit' : rest ++ c.succ n = rest ++ before ++ m :: behind := by
      rw [hsplit, List.append_assoc]
    obtain ⟨t, rest', ht, hfront, hall⟩ := exists_front hu (rest ++ before)
      { s with pending := rest ++ c.succ n } behind hpending hsplit'
    exact ⟨t, rest', (hs.tail hst).trans ht, hfront, hall⟩

/-! ## Termination -/

/-- A set of nodes that are expanded at every visit and lead back into the set. -/
def Trap (C : Set N) : Prop := ∀ n ∈ C, c.Unmarked n ∧ ∃ m ∈ c.succ n, m ∈ C

/-- Once a node of a trap is pending, one always is. -/
theorem Trap.step [DecidableEq K] {c : Marking N K} {C : Set N} (hC : c.Trap C) {s s' : Queue N K}
    (h : ∃ n ∈ s.pending, n ∈ C) (hst : c.step s = some s') : ∃ n ∈ s'.pending, n ∈ C := by
  obtain ⟨a, ha, haC⟩ := h
  obtain ⟨n, rest, hp, hcase⟩ := c.step_cases hst
  by_cases hn : n ∈ C
  · obtain ⟨⟨hs, hk⟩, m, hm, hmC⟩ := hC n hn
    rcases hcase with ⟨hs', rfl⟩ | ⟨-, -, rfl⟩ | ⟨k, -, hk', -⟩ | ⟨k, -, hk', -⟩
    · rw [hs] at hs'; cases hs'
    · exact ⟨m, List.mem_append_right _ hm, hmC⟩
    · rw [hk] at hk'; cases hk'
    · rw [hk] at hk'; cases hk'
  · have har : a ∈ rest := by
      rw [hp, List.mem_cons] at ha
      rcases ha with rfl | ha
      · exact absurd haC hn
      · exact ha
    rcases hcase with ⟨-, rfl⟩ | ⟨-, -, rfl⟩ | ⟨k, -, -, -, rfl⟩ | ⟨k, -, -, -, rfl⟩
    · exact ⟨a, har, haC⟩
    · exact ⟨a, List.mem_append_left _ har, haC⟩
    · exact ⟨a, har, haC⟩
    · exact ⟨a, List.mem_append_left _ har, haC⟩

/-- A loop that ends never has a node of a trap pending. -/
theorem Trap.not_pending [DecidableEq K] {c : Marking N K} {C : Set N} (hC : c.Trap C) {s : Queue N K}
    (hend : Ends c.step s) : ∀ n ∈ s.pending, n ∉ C := by
  intro n hn hnC
  obtain ⟨fuel, t, ht⟩ := hend
  obtain ⟨⟨m, hm, -⟩, hnone⟩ := whileSome_induct (P := fun s => ∃ n ∈ s.pending, n ∈ C)
    (fun s s' h _ hst => hC.step h hst) fuel s t ⟨n, hn, hnC⟩ ht
  rw [c.step_eq_none hnone] at hm
  exact List.not_mem_nil hm

/-- The nodes on a cycle of nodes without a key form a trap. -/
theorem trap_of_cycle {n : N} (hn : Relation.TransGen c.UnmarkedEdge n n) :
    c.Trap { m | Relation.TransGen c.UnmarkedEdge m n } := by
  intro m hm
  obtain ⟨a, hma, han⟩ := Relation.TransGen.head'_iff.1 hm
  refine ⟨hma.1, a, hma.2, ?_⟩
  exact Relation.TransGen.trans_right han hn

/-- A loop that ends reaches no cycle of nodes without a key. -/
theorem no_cycle_of_ends [DecidableEq K] {start : List N} (hd : c.KeysDistinct start)
    (hend : Ends c.step { pending := start, marked := ∅ }) {n : N} (hn : c.Reach start n) :
    ¬ Relation.TransGen c.UnmarkedEdge n n := by
  intro hcyc
  have htrap := c.trap_of_cycle hcyc
  obtain ⟨fuel, t, ht⟩ := hend
  -- ghost: the popped nodes, none of them in the trap
  obtain ⟨⟨D, hD, hDC⟩, hnone⟩ := whileSome_induct
    (P := fun s => ∃ D, c.Cover start D s ∧ ∀ m ∈ D, ¬ Relation.TransGen c.UnmarkedEdge m n)
    (fun s s' h hends hst => by
      obtain ⟨D, hD, hDC⟩ := h
      obtain ⟨a, rest, hp, hD'⟩ := hD.step hd hst
      refine ⟨insert a D, hD', fun m hm => ?_⟩
      rcases hm with rfl | hm
      · exact htrap.not_pending hends m (by rw [hp]; exact List.mem_cons_self)
      · exact hDC m hm)
    fuel _ t ⟨∅, c.cover_start start, fun m hm => hm.elim⟩ ht
  exact hDC n (hD.reach_popped (c.step_eq_none hnone) hn) hcyc

/-- When no cycle of nodes without a key is reached, each node has a weight that pays for
expanding it at every visit. -/
theorem exists_weight [Finite N] {start : List N}
    (h : ∀ n, c.Reach start n → ¬ Relation.TransGen c.UnmarkedEdge n n) :
    ∃ w : N → Nat, (∀ n, 1 ≤ w n) ∧
      ∀ n, c.Reach start n → c.Unmarked n → 1 + ((c.succ n).map w).sum ≤ w n := by
  classical
  let edge : N → N → Prop := fun n m => c.Reach start n ∧ c.UnmarkedEdge n m
  have hno : ∀ n, ¬ Relation.TransGen edge n n := fun n hn => by
    obtain ⟨m, hnm, -⟩ := Relation.TransGen.head'_iff.1 hn
    exact h n hnm.1 (hn.lift id fun _ _ hxy => hxy.2)
  have hwf : WellFounded (flip edge) := Cycles.wellFounded_of_no_cycle hno
  let w : N → Nat := hwf.fix fun n ih =>
    if hn : c.Reach start n ∧ c.Unmarked n then
      1 + ((c.succ n).attach.map fun m => ih m.1 ⟨hn.1, hn.2, m.2⟩).sum
    else 1
  have hw : ∀ n, w n = if c.Reach start n ∧ c.Unmarked n then 1 + ((c.succ n).map w).sum else 1 := by
    intro n
    show hwf.fix _ n = _
    rw [hwf.fix_eq]
    split
    · exact congrArg (1 + List.sum ·) (List.attach_map_val (f := w))
    · rfl
  refine ⟨w, fun n => ?_, fun n hr hu => ?_⟩
  · rw [hw]; split <;> omega
  · rw [hw n, if_pos ⟨hr, hu⟩]

/-- **Termination.**  A loop that reaches no cycle of nodes without a key ends: a newly marked key
is one key fewer to mark, and every other iteration pays one unit of weight. -/
theorem ends_of_no_cycle [DecidableEq K] [Finite N] {start : List N}
    (h : ∀ n, c.Reach start n → ¬ Relation.TransGen c.UnmarkedEdge n n) :
    Ends c.step { pending := start, marked := ∅ } := by
  classical
  have := Fintype.ofFinite N
  obtain ⟨w, hw1, hw⟩ := c.exists_weight h
  let keys : Finset K := Finset.univ.biUnion fun n => (c.key n).toFinset
  refine ends_of_measure (Prod.Lex.instWellFoundedLTLex (α := Nat) (β := Nat)).wf
    (fun s : Queue N K => toLex ((keys \ s.marked).card, (s.pending.map w).sum))
    (P := fun s => ∀ n ∈ s.pending, c.Reach start n) ?_ ?_ _ (fun n hn => .start hn)
  · intro s s' hs hst m hm
    obtain ⟨n, rest, hp, hcase⟩ := c.step_cases hst
    have hrest : ∀ a ∈ rest, c.Reach start a := fun a ha =>
      hs a (by rw [hp]; exact List.mem_cons_of_mem n ha)
    have hn : c.Reach start n := hs n (by rw [hp]; exact List.mem_cons_self)
    rcases hcase with ⟨-, rfl⟩ | ⟨hstop, -, rfl⟩ | ⟨k, -, -, -, rfl⟩ | ⟨k, hstop, -, -, rfl⟩
    · exact hrest m hm
    · exact (List.mem_append.1 hm).elim (hrest m) (fun hm => .next hn hstop hm)
    · exact hrest m hm
    · exact (List.mem_append.1 hm).elim (hrest m) (fun hm => .next hn hstop hm)
  · intro s s' hs hst
    obtain ⟨n, rest, hp, hcase⟩ := c.step_cases hst
    have hn : c.Reach start n := hs n (by rw [hp]; exact List.mem_cons_self)
    rw [Prod.Lex.toLex_lt_toLex]
    rcases hcase with ⟨-, rfl⟩ | ⟨hstop, hk, rfl⟩ | ⟨k, -, -, -, rfl⟩ | ⟨k, -, hk, hm, rfl⟩
    · have := hw1 n
      exact .inr ⟨rfl, by simp [hp]; omega⟩
    · have := hw n hn ⟨hstop, hk⟩
      exact .inr ⟨rfl, by simp [hp]; omega⟩
    · have := hw1 n
      exact .inr ⟨rfl, by simp [hp]; omega⟩
    · have hkeys : k ∈ keys := by
        simp only [keys, Finset.mem_biUnion, Finset.mem_univ, true_and]
        exact ⟨n, by simp [hk]⟩
      refine .inl (Finset.card_lt_card ?_)
      refine Finset.ssubset_iff_of_subset ?_ |>.2 ⟨k, by simp [hkeys, hm], by simp⟩
      exact Finset.sdiff_subset_sdiff (Finset.Subset.refl _) (Finset.subset_insert k s.marked)

end Marking

end Worklist
