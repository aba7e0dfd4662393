import Vazgen.Optimization.KLOptimizationPass
import Mathlib.Algebra.Group.Torsion

/-!
# The gains of the Kernighan-Lin pass

**`moveGains_eq_costs`**: in every iteration the gain of a candidate is its external minus its
internal cost against the current insecure partition, plus its node cost.

**`recordedGains_eq_iff`**: the gains recorded with the moves are the node costs plus the decrease of
the cut exactly if no candidate calls itself with a weight.  An edge from a function to itself is
never cut, but `getFunctionCosts` counts it as internal cost, twice.
-/

namespace Vazgen

open Worklist

namespace KLOptimizationPass

variable {F G R : Type} [DecidableEq F] [CommRing R]

/-- The state before the first iteration of the loop of `run`. -/
def start (secure insecure : Partition F G) (candidates : List F) : State F G R where
  securePartition := secure
  insecurePartition := insecure
  candidates := candidates
  moveGains := []
  functionMoveGains := []
  movedF := none

/-- The states between the iterations. -/
def InLoop [LT R] [DecidableLT R] (callgraph : CallGraph F R) (secure insecure : Partition F G)
    (candidates : List F) (s : State F G R) : Prop :=
  Reaches (step callgraph (computeCandidateEdgeCosts callgraph candidates))
    (start secure insecure candidates) s

section Loop

variable {callgraph : CallGraph F R} {secure insecure : Partition F G} {candidates : List F}
  {s : State F G R}

theorem InLoop.moved [LT R] [DecidableLT R] (h : InLoop callgraph secure insecure candidates s) :
    Moved secure insecure candidates s :=
  Reaches.induct h ⟨.refl _, rfl, rfl, fun h => absurd rfl h⟩ fun _ _ hs hst => hs.step hst

theorem InLoop.upToDate [LT R] [DecidableLT R] (h : InLoop callgraph secure insecure candidates s)
    (hnodup : candidates.Nodup) (hinsecure : ∀ f ∈ candidates, f ∈ insecure.partition) :
    UpToDate callgraph s :=
  (Reaches.induct (P := fun s => Moved secure insecure candidates s ∧ UpToDate callgraph s) h
    ⟨⟨.refl _, rfl, rfl, fun h => absurd rfl h⟩, fun _ hf => by cases hf⟩
    fun _ _ hs hst => ⟨hs.1.step hst, hs.2.step hnodup hinsecure hs.1 hst⟩).2

/-- Every recorded move was made in some iteration. -/
theorem InLoop.exists_step [LT R] [DecidableLT R] {t : State F G R}
    (h : InLoop callgraph secure insecure candidates t) :
    ∀ f ∈ t.functionMoveGains.map (·.1), ∃ s s' gain,
      InLoop callgraph secure insecure candidates s ∧
      step callgraph (computeCandidateEdgeCosts callgraph candidates) s = some s' ∧
      s'.functionMoveGains = s.functionMoveGains ++ [(f, gain)] := by
  induction h with
  | refl =>
    intro f hf
    cases hf
  | @tail s s' hs hst ih =>
    intro f hf
    obtain ⟨idx, f', gain, hf', -, hs'⟩ := step_cases hst
    rw [hs', List.map_append, List.mem_append] at hf
    rcases hf with hf | hf
    · exact ih f hf
    · cases List.mem_singleton.1 hf
      exact ⟨s, s', gain, hs, hst, by rw [hs']⟩

/-- Every candidate is moved in some iteration. -/
theorem exists_step_of_mem [LT R] [DecidableLT R] (callgraph : CallGraph F R)
    (secure insecure : Partition F G) {f : F} (hf : f ∈ candidates) :
    ∃ (s s' : State F G R) (gain : R), InLoop callgraph secure insecure candidates s ∧
      step callgraph (computeCandidateEdgeCosts callgraph candidates) s = some s' ∧
      s'.functionMoveGains = s.functionMoveGains ++ [(f, gain)] := by
  obtain ⟨t, ht, hm, hend⟩ := exists_moveAll callgraph secure insecure candidates
  have hperm := hm.perm
  rw [hend, List.append_nil] at hperm
  exact InLoop.exists_step (reaches_of_whileSome ht) f (hperm.mem_iff.2 hf)

end Loop

/-! ## The gain of a move -/

/-- The node cost plus the decrease of the cut by the move of `f`. -/
def TrueGain (callgraph : CallGraph F R) (s s' : State F G R) (f : F) (gain : R) : Prop :=
  gain = nodeCost callgraph f + (Cut.cut (arcs callgraph) s.insecurePartition.partition -
    Cut.cut (arcs callgraph) s'.insecurePartition.partition)

section Gain

variable {callgraph : CallGraph F R} {secure insecure : Partition F G} {candidates : List F}
  {s s' t : State F G R}

/-- The recorded gain of a move is off by twice the weight of the function's calls to itself. -/
theorem trueGain_iff [LinearOrder R] [IsOrderedAddMonoid R] (h : CopiesAgree callgraph)
    (hnodup : candidates.Nodup) (hinsecure : ∀ f ∈ candidates, f ∈ insecure.partition)
    (hnode : ∀ f ∈ candidates, callgraph.hasFunctionNode f = true)
    (hs : InLoop callgraph secure insecure candidates s)
    (hst : step callgraph (computeCandidateEdgeCosts callgraph candidates) s = some s')
    {f : F} {gain : R} (hmoves : s'.functionMoveGains = s.functionMoveGains ++ [(f, gain)]) :
    TrueGain callgraph s s' f gain ↔ Cut.selfWeight (arcs callgraph) f = 0 := by
  have hm := hs.moved
  have hgains := (hs.upToDate hnodup hinsecure).computeMoveGains_eq hnodup hm
  obtain ⟨idx, f', gain', hf, hgain, rfl⟩ := step_cases hst
  cases List.singleton_inj.1 (List.append_cancel_left hmoves)
  have hmem := List.mem_of_getElem? hf
  rw [hgains, List.getElem?_map, hf, Option.map_some,
    initialMoveGain_eq h _ (hnode f (hm.candidate hmem)), Option.some.injEq] at hgain
  have hcut := Cut.cut_erase (arcs callgraph) (hm.mem_insecure hnodup hinsecure hmem)
  have hdiff : nodeCost callgraph f + (Cut.cut (arcs callgraph) s.insecurePartition.partition -
      Cut.cut (arcs callgraph) (s.insecurePartition.partition.erase f)) - gain =
      (2 : ℤ) • Cut.selfWeight (arcs callgraph) f := by
    rw [hcut, ← hgain]
    abel
  unfold TrueGain
  dsimp only
  rw [Partition.partition_removeFromPartition, eq_comm, ← sub_eq_zero, hdiff]
  exact IsAddTorsionFree.zsmul_eq_zero_iff_right two_ne_zero

/-! ## A graph without edges and weights -/

/-- No node has an edge or a weight. -/
def Isolated (callgraph : CallGraph F R) : Prop :=
  ∀ node ∈ callgraph.functionNodes, node.inEdges = [] ∧ node.outEdges = [] ∧
    node.getWeight = Weight.new

theorem initialMoveGain_isolated (h : Isolated callgraph) (P : Partition F G) (f : F) :
    initialMoveGain callgraph P f = 0 := by
  unfold initialMoveGain nodeCost
  cases hnode : callgraph.getFunctionNode f with
  | none => rfl
  | some node =>
    obtain ⟨hin, hout, hweight⟩ := h node (CallGraph.getFunctionNode_eq_some hnode).1
    dsimp only
    rw [getFunctionCosts_sub, hin, hout, hweight]
    simp [Weight.new, Weight.hasFactor, WeightFactor.new, WeightFactor.isDefined]

theorem InLoop.gain_isolated [LT R] [DecidableLT R]
    (h : InLoop callgraph secure insecure candidates s) (hisolated : Isolated callgraph)
    (hnodup : candidates.Nodup) (hinsecure : ∀ f ∈ candidates, f ∈ insecure.partition) :
    ∀ gain ∈ s.functionMoveGains.map (·.2), gain = 0 := by
  induction h with
  | refl =>
    intro gain hgain
    cases hgain
  | @tail s s' hs hst ih =>
    have hgains := (InLoop.upToDate hs hnodup hinsecure).computeMoveGains_eq hnodup
      (InLoop.moved hs)
    obtain ⟨idx, f, gain, hf, hgain, rfl⟩ := step_cases hst
    rw [hgains, List.getElem?_map, hf, Option.map_some, initialMoveGain_isolated hisolated] at hgain
    intro gain' hmem
    rw [List.map_append, List.mem_append] at hmem
    rcases hmem with hmem | hmem
    · exact ih gain' hmem
    · rw [List.mem_singleton.1 hmem]
      exact (Option.some.inj hgain).symm

omit [DecidableEq F] in
/-- Moves that gain nothing and lose nothing are kept. -/
theorem keptMoves_of_zero [LinearOrder R] (h : ∀ gain ∈ t.functionMoveGains.map (·.2), gain = 0) :
    keptMoves t = t.functionMoveGains.map (·.1) := by
  have hbest := BestPrefix.best_bestPrefix (t.functionMoveGains.map (·.2))
  have hzero : ∀ j, ((t.functionMoveGains.map (·.2)).take j).sum = 0 := fun j =>
    List.sum_eq_zero fun gain hgain => h gain (List.mem_of_mem_take hgain)
  have hall : BestPrefix.bestPrefix (t.functionMoveGains.map (·.2)) =
      t.functionMoveGains.length := by
    have hle := hbest.le
    rw [List.length_map] at hle
    by_contra hne
    have hlt := hbest.longest _ le_rfl (by rw [List.length_map]; omega)
    rw [hzero, hzero] at hlt
    exact lt_irrefl _ hlt
  unfold keptMoves
  rw [hall, List.take_length]

/-- Without edges and weights the pass moves all its candidates. -/
theorem run_isolated [LinearOrder R] (hisolated : Isolated callgraph)
    (hnodup : candidates.Nodup) (hinsecure : ∀ f ∈ candidates, f ∈ insecure.partition)
    (hsecure : ∀ f ∈ candidates, f ∉ secure.partition)
    (hnode : ∀ f ∈ candidates, callgraph.hasFunctionNode f = true) :
    ∃ P Q, run callgraph secure insecure candidates = some (P, Q) ∧
      P.partition = secure.partition ∪ candidates.toFinset ∧
      P.outInterface = secure.outInterface := by
  obtain ⟨t, ht, hperm, hrun⟩ := run_eq hnodup hinsecure hsecure hnode
  have hloop : InLoop callgraph secure insecure candidates t := reaches_of_whileSome ht
  refine ⟨_, _, hrun, ?_, Partition.outInterface_foldl_removeRelatedFunction _ _⟩
  rw [Partition.partition_foldl_removeRelatedFunction,
    keptMoves_of_zero (hloop.gain_isolated hisolated hnodup hinsecure)]
  dsimp only
  rw [List.toFinset_eq_of_perm _ _ hperm]

end Gain

/-! ## Top theorems -/

/-- **The incremental gains are the gains computed from scratch**, and gains and candidates stay
aligned. -/
theorem moveGains_eq_costs [LT R] [DecidableLT R] (callgraph : CallGraph F R)
    (secure insecure : Partition F G) (candidates : List F) (hnodup : candidates.Nodup)
    (hinsecure : ∀ f ∈ candidates, f ∈ insecure.partition)
    (hnode : ∀ f ∈ candidates, callgraph.hasFunctionNode f = true) (s : State F G R)
    (hs : InLoop callgraph secure insecure candidates s) :
    (s.movedF ≠ none → s.moveGains.length = s.candidates.length) ∧
      let gains : List R :=
        computeMoveGains callgraph (computeCandidateEdgeCosts callgraph candidates) s
      gains.length = s.candidates.length ∧
      ∀ (i : Nat) (f : F), s.candidates[i]? = some f → ∃ node, callgraph.getFunctionNode f = some node ∧
        gains[i]? = some ((getFunctionCosts s.insecurePartition node).2 -
          (getFunctionCosts s.insecurePartition node).1 + nodeCost callgraph f) := by
  have hm := hs.moved
  have hgains := (hs.upToDate hnodup hinsecure).computeMoveGains_eq hnodup hm
  refine ⟨hm.gains, ?_⟩
  dsimp only
  rw [hgains]
  refine ⟨List.length_map .., fun i f hf => ?_⟩
  obtain ⟨node, hn⟩ := exists_node (hnode f (hm.candidate (List.mem_of_getElem? hf)))
  refine ⟨node, hn, ?_⟩
  rw [List.getElem?_map, hf, Option.map_some, initialMoveGain, hn]

/-- **When the recorded gains are the true gains.** -/
theorem recordedGains_eq_iff [LinearOrder R] [IsOrderedAddMonoid R] (callgraph : CallGraph F R)
    (h : CopiesAgree callgraph) (secure insecure : Partition F G) (candidates : List F)
    (hnodup : candidates.Nodup) (hinsecure : ∀ f ∈ candidates, f ∈ insecure.partition)
    (hnode : ∀ f ∈ candidates, callgraph.hasFunctionNode f = true) :
    (∀ s s' f gain, InLoop callgraph secure insecure candidates s →
        step callgraph (computeCandidateEdgeCosts callgraph candidates) s = some s' →
        s'.functionMoveGains = s.functionMoveGains ++ [(f, gain)] → TrueGain callgraph s s' f gain) ↔
      ∀ f ∈ candidates, Cut.selfWeight (arcs callgraph) f = 0 := by
  constructor
  · intro htrue f hf
    obtain ⟨s, s', gain, hs, hst, hmoves⟩ := exists_step_of_mem callgraph secure insecure hf
    exact (trueGain_iff h hnodup hinsecure hnode hs hst hmoves).1
      (htrue s s' f gain hs hst hmoves)
  · intro hself s s' f gain hs hst hmoves
    refine (trueGain_iff h hnodup hinsecure hnode hs hst hmoves).2 (hself f ?_)
    refine (hs.moved.step hst).perm.mem_iff.1 (List.mem_append_left _ ?_)
    rw [hmoves]
    simp

/-- A function that calls itself once. -/
def selfCall : CallGraph Unit ℤ where
  functionNodes :=
    [{ getFunction := (), inEdges := [callEdge () () 1], outEdges := [callEdge () () 1],
       getWeight := Weight.new }]

def selfInsecure : Partition Unit Empty where
  partition := {()}

theorem selfCall_copiesAgree : CopiesAgree selfCall :=
  ⟨⟨by decide, by decide, by decide⟩, by decide⟩

/-- The call counts as internal cost, as if moving the function cut it. -/
theorem selfCall_gain_wrong : CopiesAgree selfCall ∧ (∀ arc ∈ arcs selfCall, 0 ≤ arc.weight) ∧
    ∃ s' gain, step selfCall (computeCandidateEdgeCosts selfCall [()])
        (start {} selfInsecure [()]) = some s' ∧
      s'.functionMoveGains = [((), gain)] ∧
      ¬TrueGain selfCall (start {} selfInsecure [()]) s' () gain :=
  ⟨selfCall_copiesAgree, by decide, _, -2, rfl, rfl, by unfold TrueGain; decide⟩

theorem recursiveGraph_copiesAgree : CopiesAgree recursiveGraph :=
  ⟨⟨by decide, by decide, by decide⟩, by decide⟩

def recursiveInsecure : Partition (Fin 3) Empty where
  partition := Finset.univ

/-- `0` is moved first; the gains of `1` and `2` are then updated. -/
theorem recursiveGraph_moveGains :
    ∃ s, step recursiveGraph (computeCandidateEdgeCosts recursiveGraph [0, 1, 2])
        (start {} recursiveInsecure [0, 1, 2]) = some s ∧
      s.movedF = some 0 ∧ s.candidates = [1, 2] ∧ s.moveGains = [-5, -4] ∧
      computeMoveGains recursiveGraph (computeCandidateEdgeCosts recursiveGraph [0, 1, 2]) s =
        [1, -4] ∧
      ∀ (i : Nat) (f : Fin 3), s.candidates[i]? = some f →
        ∃ node, recursiveGraph.getFunctionNode f = some node ∧
          (computeMoveGains recursiveGraph
            (computeCandidateEdgeCosts recursiveGraph [0, 1, 2]) s)[i]? =
            some ((getFunctionCosts s.insecurePartition node).2 -
              (getFunctionCosts s.insecurePartition node).1 + nodeCost recursiveGraph f) :=
  ⟨_, rfl, rfl, rfl, by decide, by decide,
    (moveGains_eq_costs recursiveGraph {} recursiveInsecure [0, 1, 2] (by decide) (by decide)
      (by decide) _ (.single rfl)).2.2⟩

/-- `2` calls itself, `0` and `1` do not. -/
theorem recursiveGraph_gains_iff :
    (∀ s s' f gain, InLoop recursiveGraph {} recursiveInsecure [0, 1, 2] s →
        step recursiveGraph (computeCandidateEdgeCosts recursiveGraph [0, 1, 2]) s = some s' →
        s'.functionMoveGains = s.functionMoveGains ++ [(f, gain)] →
        TrueGain recursiveGraph s s' f gain) ↔
      ∀ f ∈ [0, 1, 2], Cut.selfWeight (arcs recursiveGraph) f = 0 :=
  recordedGains_eq_iff recursiveGraph recursiveGraph_copiesAgree {} recursiveInsecure [0, 1, 2]
    (by decide) (by decide) (by decide)

end KLOptimizationPass

end Vazgen
