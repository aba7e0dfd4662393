import Vazgen.Analysis.Traversal

/-!
# Sensitivity analysis: what a walk reaches, and when it ends

A walk goes on from a node that it does not drop and that is no function node (`Reached`).  It ends
when it reaches no cycle of nodes that it expands at every visit (`loop_ends`), and only then if
values identify nodes (`noRepeatCycle_of_ends`).  `walk_induct` is the rule for what a walk that
ends has done for every node it reaches.
-/

namespace Vazgen

open Worklist

variable {F G V N : Type}

/-! ## The nodes a walk reaches -/

/-- The nodes reached from `start`: the walk goes on to the neighbours that are no constant or null
nodes, from a node that it does not drop and that is no function node. -/
inductive Reached (pdg : PDG F G V N) (drop : N → Bool) (neighbours : N → List N)
    (start : N → Prop) : N → Prop
  | start {n : N} : start n → Reached pdg drop neighbours start n
  | next {n m : N} : Reached pdg drop neighbours start n → drop n = false →
      pdg.functionOf n = none → m ∈ neighbours n → canProcessNode pdg m = true →
      Reached pdg drop neighbours start m

theorem Reached.mono {pdg : PDG F G V N} {drop : N → Bool} {neighbours : N → List N}
    {start start' : N → Prop} (h : ∀ n, start n → start' n) {n : N}
    (hn : Reached pdg drop neighbours start n) : Reached pdg drop neighbours start' n := by
  induction hn with
  | start hs => exact .start (h _ hs)
  | next _ hd hf hm hc ih => exact .next ih hd hf hm hc

/-- `queued` lists the processable neighbours. -/
def QueuesNeighbours (pdg : PDG F G V N) (queued neighbours : N → List N) : Prop :=
  ∀ n m, m ∈ queued n ↔ m ∈ neighbours n ∧ canProcessNode pdg m = true

theorem queuesNeighbours_backward (pdg : PDG F G V N) :
    QueuesNeighbours pdg (backwardQueued pdg) (inNeighbours pdg) := by
  intro n m
  exact List.mem_filter

/-- The formal argument nodes that are queued on top are neighbours too. -/
theorem queuesNeighbours_forward (pdg : PDG F G V N) :
    QueuesNeighbours pdg (forwardQueued pdg) (outNeighbours pdg) := by
  intro n m
  unfold forwardQueued
  rw [List.mem_append, List.mem_filter]
  constructor
  · rintro (h | h)
    · split at h
      · unfold formalArgTargets at h
        split at h
        · obtain ⟨hm, hk⟩ := List.mem_filter.1 h
          refine ⟨hm, ?_⟩
          unfold canProcessNode
          split at hk
          · next hk' => rw [hk']
          · cases hk
        · cases h
      · cases h
    · exact h
  · exact .inr

section Control

variable {pdg : PDG F G V N} {loop : TraverseLoop F G V N} {queued neighbours : N → List N}
  {start : List N}

theorem mem_marking_succ (hn : QueuesNeighbours pdg queued neighbours) {n m : N} :
    m ∈ (loop.marking pdg queued).succ n ↔
      pdg.functionOf n = none ∧ m ∈ neighbours n ∧ canProcessNode pdg m = true := by
  simp only [TraverseLoop.marking]
  cases hf : pdg.functionOf n with
  | some f => simp
  | none => simp [hn n m]

theorem marking_reach_iff (hn : QueuesNeighbours pdg queued neighbours) {n : N} :
    (loop.marking pdg queued).Reach start n ↔
      Reached pdg loop.drop neighbours (· ∈ start) n := by
  constructor
  · intro h
    induction h with
    | start hs => exact .start hs
    | next _ hs hm ih =>
      obtain ⟨hf, hm, hc⟩ := (mem_marking_succ hn).1 hm
      exact .next ih hs hf hm hc
  · intro h
    induction h with
    | start hs => exact .start hs
    | next _ hd hf hm hc ih => exact .next ih hd ((mem_marking_succ hn).2 ⟨hf, hm, hc⟩)

end Control

/-! ## Termination -/

/-- An edge that the walk follows at every visit of its node: nothing enters the node in
`processed_values`. -/
def repeatEdge (pdg : PDG F G V N) (loop : TraverseLoop F G V N) (neighbours : N → List N)
    (n m : N) : Prop :=
  loop.drop n = false ∧ loop.key n = none ∧ pdg.functionOf n = none ∧ m ∈ neighbours n ∧
    canProcessNode pdg m = true

/-- No cycle of nodes that are expanded at every visit is reached. -/
def NoRepeatCycle (pdg : PDG F G V N) (loop : TraverseLoop F G V N) (neighbours : N → List N)
    (start : N → Prop) : Prop :=
  ∀ n, Reached pdg loop.drop neighbours start n →
    ¬ Relation.TransGen (repeatEdge pdg loop neighbours) n n

/-- Nodes that the loop would mark by the same value are the same node. -/
def TraverseLoop.KeysDistinct (loop : TraverseLoop F G V N) : Prop :=
  ∀ n m v, loop.drop n = false → loop.drop m = false → loop.key n = some v → loop.key m = some v →
    n = m

section Termination

variable (M : Module F G V) (pdg : PDG F G V N)
  {loop : TraverseLoop F G V N} {queued neighbours : N → List N} (annotated : F)

theorem repeatEdge_eq (hn : QueuesNeighbours pdg queued neighbours) :
    (loop.marking pdg queued).UnmarkedEdge = repeatEdge pdg loop neighbours := by
  funext n m
  simp only [Marking.UnmarkedEdge, Marking.Unmarked, repeatEdge, mem_marking_succ hn, and_assoc]
  rfl

variable [DecidableEq F] [DecidableEq V]

/-- A walk from `s` ends when it reaches no cycle of nodes expanded at every visit. -/
theorem loop_ends [Finite N] (hq : loop.Queues queued) (hn : QueuesNeighbours pdg queued neighbours)
    {s : TraverseState F G V N} (hs : s.processedValues = ∅)
    (h : NoRepeatCycle pdg loop neighbours (· ∈ s.workingList)) :
    Ends (traverseStep M pdg loop annotated) s := by
  rw [ends_map (traverseStep_toQueue M pdg loop annotated hq) s, TraverseState.toQueue, hs]
  refine Marking.ends_of_no_cycle _ fun n hr => ?_
  rw [repeatEdge_eq pdg hn]
  exact h n ((marking_reach_iff hn).1 hr)

/-- When values identify nodes, a walk that ends reaches no such cycle. -/
theorem noRepeatCycle_of_ends (hq : loop.Queues queued)
    (hn : QueuesNeighbours pdg queued neighbours) (hd : loop.KeysDistinct)
    {s : TraverseState F G V N} (hs : s.processedValues = ∅)
    (h : Ends (traverseStep M pdg loop annotated) s) :
    NoRepeatCycle pdg loop neighbours (· ∈ s.workingList) := by
  rw [ends_map (traverseStep_toQueue M pdg loop annotated hq) s, TraverseState.toQueue, hs] at h
  intro n hr
  rw [← repeatEdge_eq pdg hn]
  exact Marking.no_cycle_of_ends _ (fun a b v _ _ => hd a b v) h ((marking_reach_iff hn).2 hr)

end Termination

/-! ## Run rules of the walks -/

section Run

variable [DecidableEq F] [DecidableEq V] {M : Module F G V} {pdg : PDG F G V N}
  {loop : TraverseLoop F G V N} {queued neighbours : N → List N} {annotated : F}

/-- A walk keeps the function set, every level and every related function. -/
theorem keeps_of_run (hq : loop.Queues queued) {fuel : Nat} {s t : TraverseState F G V N}
    (hrun : whileSome (traverseStep M pdg loop annotated) fuel s = some t) :
    t.partition.partition = s.partition.partition ∧
      (∀ f ∈ s.functionLevels, f ∈ t.functionLevels) ∧
      ∀ f ∈ s.partition.relatedFunctions, f ∈ t.partition.relatedFunctions := by
  refine (whileSome_induct (P := fun u => u.partition.partition = s.partition.partition ∧
    (∀ f ∈ s.functionLevels, f ∈ u.functionLevels) ∧
    ∀ f ∈ s.partition.relatedFunctions, f ∈ u.partition.relatedFunctions) ?_ fuel s t
    ⟨rfl, fun _ h => h, fun _ h => h⟩ hrun).1
  rintro u u' ⟨hp, hl, hr⟩ - hst
  obtain ⟨n, rest, -, ⟨-, rfl⟩ | ⟨-, pv, rfl⟩⟩ := traverseStep_cases M pdg loop annotated hst
  · exact ⟨hp, hl, hr⟩
  · have hgrows := grows_visitNode M pdg loop annotated hq n { u with
      workingList := rest, processedValues := pv }
    exact ⟨hgrows.partition.trans hp, fun f hf => hgrows.levels f (hl f hf),
      fun f hf => hgrows.related f (hr f hf)⟩

/-- Every pending node is reached. -/
theorem pending_reached (hq : loop.Queues queued) (hn : QueuesNeighbours pdg queued neighbours)
    {start : N → Prop} {s s' : TraverseState F G V N}
    (h : ∀ n ∈ s.workingList, Reached pdg loop.drop neighbours start n)
    (hst : traverseStep M pdg loop annotated s = some s') :
    ∀ n ∈ s'.workingList, Reached pdg loop.drop neighbours start n := by
  obtain ⟨n, rest, hw, hcase⟩ := traverseStep_cases M pdg loop annotated hst
  have hrest : ∀ m ∈ rest, Reached pdg loop.drop neighbours start m := fun m hm =>
    h m (by rw [hw]; exact List.mem_cons_of_mem n hm)
  rcases hcase with ⟨-, rfl⟩ | ⟨hd, pv, rfl⟩
  · exact hrest
  · rw [workingList_visitNode M pdg loop annotated hq]
    intro m hm
    rcases List.mem_append.1 hm with hm | hm
    · exact hrest m hm
    · obtain ⟨hf, hm, hc⟩ := (mem_marking_succ hn).1 hm
      exact .next (h n (by rw [hw]; exact List.mem_cons_self)) hd hf hm hc

/-- **Run rule.**  `P D s` says what the walk has done for the popped nodes `D`.  A popped node is
visited, or dropped, or it is in `D` already; at the end `D` contains everything reached. -/
theorem walk_induct (hq : loop.Queues queued) (hn : QueuesNeighbours pdg queued neighbours)
    {start : List N} {P : Set N → TraverseState F G V N → Prop}
    (hd : ∀ n m v, Reached pdg loop.drop neighbours (· ∈ start) n →
      Reached pdg loop.drop neighbours (· ∈ start) m → loop.drop n = false → loop.drop m = false →
      loop.key n = some v → loop.key m = some v → n = m)
    (hskip : ∀ D s n rest, P D s → s.workingList = n :: rest → loop.drop n = true ∨ n ∈ D →
      P (insert n D) { s with workingList := rest })
    (hvisit : ∀ D s n rest pv, P D s → s.workingList = n :: rest →
      Reached pdg loop.drop neighbours (· ∈ start) n → loop.drop n = false →
      P (insert n D) (visitNode M pdg loop annotated n
        { s with workingList := rest, processedValues := pv }))
    {fuel : Nat} {s t : TraverseState F G V N} (hs : s.workingList = start)
    (hpv : s.processedValues = ∅) (h0 : P ∅ s)
    (hrun : whileSome (traverseStep M pdg loop annotated) fuel s = some t) :
    ∃ D, P D t ∧ ∀ n, Reached pdg loop.drop neighbours (· ∈ start) n → n ∈ D := by
  let c := loop.marking pdg queued
  have hkeys : c.KeysDistinct start := fun n m v hrn hrm =>
    hd n m v ((marking_reach_iff hn).1 hrn) ((marking_reach_iff hn).1 hrm)
  have hcover : c.Cover start ∅ s.toQueue := by
    subst hs
    have := c.cover_start s.workingList
    rwa [← hpv] at this
  obtain ⟨⟨D, hP, hD⟩, hnone⟩ := whileSome_induct
    (P := fun s => ∃ D, P D s ∧ c.Cover start D s.toQueue)
    (fun s s' h _ hst => by
      obtain ⟨D, hP, hD⟩ := h
      have hmap := traverseStep_toQueue M pdg loop annotated hq s
      rw [hst] at hmap
      obtain ⟨n, rest, hw, hD'⟩ := hD.step hkeys hmap.symm
      have hw' : s.workingList = n :: rest := hw
      refine ⟨insert n D, ?_, hD'⟩
      have hpend : n ∈ s.toQueue.pending := by rw [hw]; exact List.mem_cons_self
      obtain ⟨n', rest', hw'', hcase⟩ := traverseStep_cases M pdg loop annotated hst
      rw [hw'] at hw''
      cases hw''
      rcases hcase with ⟨hdrop, rfl⟩ | ⟨hdrop, pv, rfl⟩
      · refine hskip D s n rest hP hw' ?_
        rcases hdrop with hdrop | ⟨v, hv, hk⟩
        · exact .inl hdrop
        · cases hdn : loop.drop n with
          | true => exact .inl rfl
          | false => exact .inr (hD.mem_of_marked hkeys hpend hdn hk hv)
      · exact hvisit D s n rest pv hP hw'
          ((marking_reach_iff hn).1 (hD.pending_reach n hpend)) hdrop)
    fuel s t ⟨∅, h0, hcover⟩ hrun
  have hpend : t.toQueue.pending = [] := by
    have hmap := traverseStep_toQueue M pdg loop annotated hq t
    rw [hnone] at hmap
    exact c.step_eq_none hmap.symm
  exact ⟨D, hP, fun n hr => hD.reach_popped hpend ((marking_reach_iff hn).2 hr)⟩

end Run

end Vazgen
