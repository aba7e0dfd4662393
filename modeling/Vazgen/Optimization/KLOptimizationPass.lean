import Vazgen.Analysis.CallGraph
import Vazgen.Analysis.Partition
import Vazgen.Lib.BestPrefix
import Vazgen.Lib.Cut
import Vazgen.Lib.Worklist
import Mathlib.Algebra.Group.Action.Defs
import Mathlib.Tactic.Ring

/-!
# The Kernighan-Lin pass

The pass moves all its candidates from the insecure to the secure partition, each time the one with
the largest gain, and then takes back all but the longest prefix of the moves whose gains sum up to
the maximum.
-/

namespace Vazgen

open Worklist

namespace KLOptimizationPass

variable {F G R : Type}

/-! ## Algorithm -/

/-- The members of the pass that change while it runs. -/
structure State (F G R : Type) where
  securePartition : Partition F G
  insecurePartition : Partition F G
  candidates : List F
  moveGains : List R
  functionMoveGains : List (F × R)
  movedF : Option F

section Model

variable [DecidableEq F] [Zero R] [Add R] [Sub R] [Mul R] [SMul ℤ R]

/-- The CALL_NUM weight of an edge. -/
def callNum (edge : Edge F R) : R := (edge.getWeight.getFactor .callNum).getWeight

def addEdgeCost (f g : F) (weight : R) (costs : F → F → R) : F → F → R :=
  Function.update costs f (Function.update (costs f) g (costs f g + weight))

/-- `computeCandidateEdgeCosts`: an entry that is not there is `0`. -/
def computeCandidateEdgeCosts (callgraph : CallGraph F R) (candidates : List F) : F → F → R :=
  candidates.foldl (fun costs f =>
    match callgraph.getFunctionNode f with
    | none => costs
    | some node =>
      node.outEdges.foldl (fun costs edge => addEdgeCost f edge.getSink (callNum edge) costs)
        (node.inEdges.foldl (fun costs edge => addEdgeCost f edge.getSource (callNum edge) costs)
          costs)) fun _ _ => 0

/-- `computeNodeCosts`, at a candidate. -/
def nodeCost (callgraph : CallGraph F R) (f : F) : R :=
  match callgraph.getFunctionNode f with
  | none => 0
  | some node =>
    let sensitiveRelatedFactor := if node.getWeight.hasFactor .sensitiveRelated then
      (node.getWeight.getFactor .sensitiveRelated).getWeight else 0
    let sizeFactor := if node.getWeight.hasFactor .size then
      (node.getWeight.getFactor .size).getWeight else 0
    sensitiveRelatedFactor + (-1 : ℤ) • sizeFactor

/-- `getFunctionCosts`: internal and external cost. -/
def getFunctionCosts (insecure : Partition F G) (node : Node F R) : R × R :=
  let add (other : F) (weight : R) (costs : R × R) : R × R :=
    if other ∈ insecure.partition then (costs.1 + weight, costs.2)
    else (costs.1, costs.2 + weight)
  node.outEdges.foldl (fun costs edge => add edge.getSink (callNum edge) costs)
    (node.inEdges.foldl (fun costs edge => add edge.getSource (callNum edge) costs) (0, 0))

/-- The gain of a candidate in `computeInitialMoveGains`. -/
def initialMoveGain (callgraph : CallGraph F R) (insecure : Partition F G) (f : F) : R :=
  match callgraph.getFunctionNode f with
  | none => 0
  | some node =>
    let costs := getFunctionCosts insecure node
    costs.2 - costs.1 + nodeCost callgraph f

/-- `computeMoveGains` -/
def computeMoveGains (callgraph : CallGraph F R) (edgeCosts : F → F → R) (s : State F G R) :
    List R :=
  match s.movedF with
  | none => s.candidates.map (initialMoveGain callgraph s.insecurePartition)
  | some movedF =>
    s.candidates.zipWith (fun f gain => gain + (2 : ℤ) • edgeCosts f movedF) s.moveGains

/-- `moveFunction` -/
def moveFunction (idx : Nat) (s : State F G R) : Option (State F G R) :=
  match s.candidates[idx]?, s.moveGains[idx]? with
  | some f, some gain => some
    { securePartition := s.securePartition.addToPartition f
      insecurePartition := s.insecurePartition.removeFromPartition f
      candidates := s.candidates.eraseIdx idx
      moveGains := s.moveGains.eraseIdx idx
      functionMoveGains := s.functionMoveGains ++ [(f, gain)]
      movedF := some f }
  | _, _ => none

variable [LT R] [DecidableLT R] [LE R] [DecidableLE R]

/-- One iteration of the loop of `run`. -/
def step (callgraph : CallGraph F R) (edgeCosts : F → F → R) (s : State F G R) :
    Option (State F G R) :=
  if s.candidates.isEmpty then none
  else
    let s := { s with moveGains := computeMoveGains callgraph edgeCosts s }
    moveFunction (BestPrefix.maxElement s.moveGains) s

/-- The moves that `applyOptimization` keeps. -/
def keptMoves (s : State F G R) : List F :=
  (s.functionMoveGains.take (BestPrefix.bestPrefix (s.functionMoveGains.map (·.2)))).map (·.1)

/-- `applyOptimization` -/
def applyOptimization (s : State F G R) : Partition F G × Partition F G :=
  let kept := BestPrefix.bestPrefix (s.functionMoveGains.map (·.2))
  let reverted := (s.functionMoveGains.drop kept).map (·.1)
  let secure := reverted.foldl (fun P f => P.removeFromPartition f) s.securePartition
  let insecure := reverted.foldl (fun P f => P.addToPartition f) s.insecurePartition
  ((keptMoves s).foldl (fun P f => P.removeRelatedFunction f) secure, insecure)

/-- The loop of `run`: every iteration takes one candidate. -/
def moveAll (callgraph : CallGraph F R) (secure insecure : Partition F G) (candidates : List F) :
    Option (State F G R) :=
  whileSome (step callgraph (computeCandidateEdgeCosts callgraph candidates))
    (candidates.length + 1)
    { securePartition := secure
      insecurePartition := insecure
      candidates := candidates
      moveGains := []
      functionMoveGains := []
      movedF := none }

/-- `run`; `none` when the assertion that each candidate has a call graph node fails. -/
def run (callgraph : CallGraph F R) (secure insecure : Partition F G) (candidates : List F) :
    Option (Partition F G × Partition F G) :=
  if candidates.all callgraph.hasFunctionNode then
    (moveAll callgraph secure insecure candidates).map applyOptimization
  else none

end Model

/-! ## What the pass does to the two partitions, in any arithmetic -/

section Sets

variable [DecidableEq F] [Zero R] [Add R] [Sub R] [Mul R] [SMul ℤ R] [LT R] [DecidableLT R]
  {callgraph : CallGraph F R} {edgeCosts : F → F → R} {s s' : State F G R}

/-- What one iteration does: a candidate goes over, with its gain. -/
theorem step_cases (h : step callgraph edgeCosts s = some s') :
    ∃ idx f gain, s.candidates[idx]? = some f ∧
      (computeMoveGains callgraph edgeCosts s)[idx]? = some gain ∧
      s' = { securePartition := s.securePartition.addToPartition f
             insecurePartition := s.insecurePartition.removeFromPartition f
             candidates := s.candidates.eraseIdx idx
             moveGains := (computeMoveGains callgraph edgeCosts s).eraseIdx idx
             functionMoveGains := s.functionMoveGains ++ [(f, gain)]
             movedF := some f } := by
  unfold step at h
  split at h
  · cases h
  · unfold moveFunction at h
    dsimp only at h
    split at h
    · next f gain hf hgain => exact ⟨_, f, gain, hf, hgain, (Option.some.inj h).symm⟩
    · cases h

/-- A gain is kept for each candidate. -/
def GainsMatch (s : State F G R) : Prop :=
  s.movedF ≠ none → s.moveGains.length = s.candidates.length

omit [LT R] [DecidableLT R] in
variable (callgraph edgeCosts) in
theorem length_computeMoveGains (h : GainsMatch s) :
    (computeMoveGains callgraph edgeCosts s).length = s.candidates.length := by
  unfold computeMoveGains
  split
  · rw [List.length_map]
  · next hf =>
    have := h (by rw [hf]; simp)
    rw [List.length_zipWith]
    omega

/-- The loop stops when no candidate is left. -/
theorem candidates_of_step_none (hg : GainsMatch s) (h : step callgraph edgeCosts s = none) :
    s.candidates = [] := by
  by_contra hne
  have hlen := length_computeMoveGains callgraph edgeCosts hg
  have hgains : computeMoveGains callgraph edgeCosts s ≠ [] := by
    intro hnil
    rw [hnil, List.length_nil] at hlen
    exact hne (List.length_eq_zero_iff.1 hlen.symm)
  have hidx := BestPrefix.maxElement_lt hgains
  unfold step at h
  rw [if_neg (by simpa using hne)] at h
  unfold moveFunction at h
  dsimp only at h
  rw [List.getElem?_eq_getElem hidx, List.getElem?_eq_getElem (by omega)] at h
  cases h

/-- The moved functions, in the order of the moves, and the candidates left. -/
structure Moved (secure insecure : Partition F G) (candidates : List F) (s : State F G R) : Prop where
  perm : (s.functionMoveGains.map (·.1) ++ s.candidates).Perm candidates
  secure : s.securePartition =
    (s.functionMoveGains.map (·.1)).foldl (fun P f => P.addToPartition f) secure
  insecure : s.insecurePartition =
    (s.functionMoveGains.map (·.1)).foldl (fun P f => P.removeFromPartition f) insecure
  gains : GainsMatch s

theorem Moved.step {secure insecure : Partition F G} {candidates : List F}
    (hm : Moved secure insecure candidates s) (h : step callgraph edgeCosts s = some s') :
    Moved secure insecure candidates s' := by
  obtain ⟨idx, f, gain, hf, hgain, rfl⟩ := step_cases h
  obtain ⟨hidx, hget⟩ := List.getElem?_eq_some_iff.1 hf
  refine ⟨?_, ?_, ?_, fun _ => ?_⟩
  · refine List.Perm.trans ?_ hm.perm
    simp only [List.map_append, List.map_cons, List.map_nil, List.append_assoc]
    refine List.Perm.append_left _ ?_
    rw [← hget]
    exact List.getElem_cons_eraseIdx_perm hidx
  · simp [hm.secure]
  · simp [hm.insecure]
  · have hlen := length_computeMoveGains callgraph edgeCosts hm.gains
    rw [List.length_eraseIdx_of_lt (by omega), List.length_eraseIdx_of_lt hidx, hlen]

variable [LE R] [DecidableLE R]

omit [LE R] [DecidableLE R] in
/-- The loop ends, and then every candidate has been moved. -/
theorem exists_moveAll (callgraph : CallGraph F R) (secure insecure : Partition F G)
    (candidates : List F) :
    ∃ t, moveAll callgraph secure insecure candidates = some t ∧
      Moved secure insecure candidates t ∧ t.candidates = [] := by
  have hends : ∃ t, moveAll callgraph secure insecure candidates = some t := by
    refine whileSome_of_measure (fun s : State F G R => s.candidates.length)
      (fun s s' h => ?_) _ _ (Nat.lt_succ_self _)
    obtain ⟨idx, f, gain, hf, -, rfl⟩ := step_cases h
    obtain ⟨hidx, -⟩ := List.getElem?_eq_some_iff.1 hf
    dsimp only
    rw [List.length_eraseIdx_of_lt hidx]
    omega
  obtain ⟨t, ht⟩ := hends
  obtain ⟨hm, hnone⟩ := whileSome_induct (P := Moved secure insecure candidates)
    (fun s s' hm _ h => hm.step h) _ _ t ⟨.refl _, rfl, rfl, fun h => absurd rfl h⟩ ht
  exact ⟨t, ht, hm, candidates_of_step_none hm.gains hnone⟩

/-- A pass leaves the globals alone, whatever its candidates are. -/
theorem partitionGlobals_run {secure insecure : Partition F G} {candidates : List F}
    {P Q : Partition F G} (h : run callgraph secure insecure candidates = some (P, Q)) :
    P.partitionGlobals = secure.partitionGlobals ∧
      Q.partitionGlobals = insecure.partitionGlobals := by
  unfold run at h
  split at h
  · obtain ⟨t, ht, hm, -⟩ := exists_moveAll callgraph secure insecure candidates
    rw [ht, Option.map_some, applyOptimization] at h
    cases h
    rw [Partition.partitionGlobals_foldl_removeRelatedFunction,
      Partition.foldl_removeFromPartition, Partition.foldl_addToPartition, hm.secure, hm.insecure,
      Partition.foldl_addToPartition, Partition.foldl_removeFromPartition]
    exact ⟨rfl, rfl⟩
  · cases h

omit [Sub R] [Mul R] [SMul ℤ R] [LT R] [DecidableLT R] in
/-- Taking the other moves back leaves the kept ones. -/
theorem applyOptimization_eq {secure insecure : Partition F G} {candidates : List F}
    (hnodup : candidates.Nodup) (hinsecure : ∀ f ∈ candidates, f ∈ insecure.partition)
    (hsecure : ∀ f ∈ candidates, f ∉ secure.partition) {t : State F G R}
    (hm : Moved secure insecure candidates t) (hend : t.candidates = []) :
    applyOptimization t =
      ((keptMoves t).foldl (fun P f => P.removeRelatedFunction f)
        { secure with partition := secure.partition ∪ (keptMoves t).toFinset },
        { insecure with partition := insecure.partition \ (keptMoves t).toFinset }) := by
  unfold applyOptimization
  dsimp only
  set k := BestPrefix.bestPrefix (t.functionMoveGains.map (·.2))
  have hkept : keptMoves t = (t.functionMoveGains.take k).map (·.1) := rfl
  set kept := keptMoves t
  set reverted := (t.functionMoveGains.drop k).map (·.1) with hreverted
  have hmoved : t.functionMoveGains.map (·.1) = kept ++ reverted := by
    rw [hkept, hreverted, ← List.map_append, List.take_append_drop]
  have hperm := hm.perm
  rw [hend, List.append_nil, hmoved] at hperm
  have hdisj := List.disjoint_of_nodup_append (hperm.nodup_iff.2 hnodup)
  have hcand : ∀ f ∈ reverted, f ∈ candidates := fun f hf =>
    hperm.mem_iff.1 (List.mem_append_right _ hf)
  have hsec : (secure.partition ∪ (kept ++ reverted).toFinset) \ reverted.toFinset =
      secure.partition ∪ kept.toFinset := by
    ext f
    simp only [Finset.mem_sdiff, Finset.mem_union, List.mem_toFinset, List.mem_append]
    constructor
    · rintro ⟨hf | hf | hf, hr⟩
      · exact .inl hf
      · exact .inr hf
      · exact absurd hf hr
    · rintro (hf | hf)
      · exact ⟨.inl hf, fun hr => hsecure f (hcand f hr) hf⟩
      · exact ⟨.inr (.inl hf), fun hr => hdisj hf hr⟩
  have hins : insecure.partition \ (kept ++ reverted).toFinset ∪ reverted.toFinset =
      insecure.partition \ kept.toFinset := by
    ext f
    simp only [Finset.mem_sdiff, Finset.mem_union, List.mem_toFinset, List.mem_append]
    constructor
    · rintro (⟨hf, hr⟩ | hf)
      · exact ⟨hf, fun hkept => hr (.inl hkept)⟩
      · exact ⟨hinsecure f (hcand f hf), fun hkept => hdisj hkept hf⟩
    · rintro ⟨hf, hkept⟩
      by_cases hr : f ∈ reverted
      · exact .inr hr
      · exact .inl ⟨hf, fun h => h.elim hkept hr⟩
  rw [hm.secure, hm.insecure, hmoved]
  simp only [Partition.foldl_addToPartition, Partition.foldl_removeFromPartition, hsec, hins]

/-- What a pass whose candidates have call graph nodes does to the two partitions. -/
theorem run_eq {callgraph : CallGraph F R} {secure insecure : Partition F G} {candidates : List F}
    (hnodup : candidates.Nodup) (hinsecure : ∀ f ∈ candidates, f ∈ insecure.partition)
    (hsecure : ∀ f ∈ candidates, f ∉ secure.partition)
    (hnode : ∀ f ∈ candidates, callgraph.hasFunctionNode f = true) :
    ∃ t, moveAll callgraph secure insecure candidates = some t ∧
      (t.functionMoveGains.map (·.1)).Perm candidates ∧
      run callgraph secure insecure candidates = some
        ((keptMoves t).foldl (fun P f => P.removeRelatedFunction f)
          { secure with partition := secure.partition ∪ (keptMoves t).toFinset },
          { insecure with partition := insecure.partition \ (keptMoves t).toFinset }) := by
  obtain ⟨t, ht, hm, hend⟩ := exists_moveAll callgraph secure insecure candidates
  have hperm := hm.perm
  rw [hend, List.append_nil] at hperm
  refine ⟨t, ht, hperm, ?_⟩
  unfold run
  rw [if_pos (List.all_eq_true.2 hnode), ht, Option.map_some,
    applyOptimization_eq hnodup hinsecure hsecure hm hend]

omit [DecidableEq F] [Sub R] [Mul R] [SMul ℤ R] [LT R] [DecidableLT R] in
theorem mem_of_mem_keptMoves {t : State F G R} {candidates : List F}
    (hperm : (t.functionMoveGains.map (·.1)).Perm candidates) {f : F} (hf : f ∈ keptMoves t) :
    f ∈ candidates :=
  hperm.mem_iff.1 (List.map_subset _ (List.take_subset _ _) hf)

end Sets

/-! ## Costs and gains in exact arithmetic -/

section Exact

variable [DecidableEq F] [CommRing R]

def toArc (edge : Edge F R) : Cut.Arc F R :=
  { src := edge.getSource, dst := edge.getSink, weight := callNum edge }

/-- Each call edge once: the out-edges of all nodes. -/
def arcs (callgraph : CallGraph F R) : List (Cut.Arc F R) :=
  callgraph.functionNodes.flatMap fun node => node.outEdges.map toArc

/-- The in-edges of a node are copies of the out-edges that lead to it, with the same CALL_NUM
weight. -/
structure CopiesAgree (callgraph : CallGraph F R) : Prop extends callgraph.WellFormed where
  copies : ∀ node ∈ callgraph.functionNodes,
    (node.inEdges.map toArc).Perm ((arcs callgraph).filter (·.dst = node.getFunction))

theorem filter_src_arcs {callgraph : CallGraph F R} (h : CopiesAgree callgraph) {node : Node F R}
    (hnode : node ∈ callgraph.functionNodes) :
    (arcs callgraph).filter (·.src = node.getFunction) = node.outEdges.map toArc := by
  obtain ⟨nodes⟩ := callgraph
  have hnodup := h.nodup
  have hsource := h.source
  clear h
  unfold arcs
  dsimp only at hnode hnodup hsource ⊢
  -- the arcs of one node leave it, those of the others do not
  have hother : ∀ other ∈ nodes, other.getFunction ≠ node.getFunction →
      (other.outEdges.map toArc).filter (·.src = node.getFunction) = [] := by
    intro other ho hne
    rw [List.filter_eq_nil_iff]
    intro arc harc
    obtain ⟨edge, he, rfl⟩ := List.mem_map.1 harc
    simpa [toArc, hsource other ho edge he] using hne
  have hown : (node.outEdges.map toArc).filter (·.src = node.getFunction) =
      node.outEdges.map toArc := by
    rw [List.filter_eq_self]
    intro arc harc
    obtain ⟨edge, he, rfl⟩ := List.mem_map.1 harc
    exact decide_eq_true (hsource node hnode edge he)
  clear hsource
  induction nodes with
  | nil => cases hnode
  | cons first rest ih =>
    rw [List.map_cons, List.nodup_cons] at hnodup
    rw [List.flatMap_cons, List.filter_append]
    by_cases hfirst : first = node
    · subst hfirst
      rw [hown, List.filter_flatMap]
      have hrest : rest.flatMap (fun other =>
          (other.outEdges.map toArc).filter (·.src = first.getFunction)) = [] := by
        rw [List.flatMap_eq_nil_iff]
        intro other ho
        refine hother other (List.mem_cons_of_mem first ho) fun heq => hnodup.1 ?_
        exact heq ▸ List.mem_map_of_mem ho
      rw [hrest, List.append_nil]
    · have hmem : node ∈ rest := (List.mem_cons.1 hnode).resolve_left fun e => hfirst e.symm
      have hne : first.getFunction ≠ node.getFunction := fun heq =>
        hnodup.1 (heq ▸ List.mem_map_of_mem hmem)
      rw [hother first List.mem_cons_self hne, List.nil_append]
      exact ih hmem hnodup.2 fun other ho => hother other (List.mem_cons_of_mem first ho)

theorem foldl_addEdgeCost (f a b : F) (other : Edge F R → F) (edges : List (Edge F R))
    (costs : F → F → R) :
    edges.foldl (fun costs edge => addEdgeCost f (other edge) (callNum edge) costs) costs a b =
      costs a b +
        if a = f then (edges.map fun edge => if other edge = b then callNum edge else 0).sum
        else 0 := by
  induction edges generalizing costs with
  | nil => simp
  | cons edge edges ih =>
    rw [List.foldl_cons, ih]
    by_cases ha : a = f
    · subst ha
      by_cases hb : other edge = b
      · subst hb
        simp [addEdgeCost, add_assoc]
      · simp [addEdgeCost, hb, Function.update_of_ne (Ne.symm hb)]
    · simp [addEdgeCost, ha]

/-- What a candidate contributes to the row of its edge costs. -/
def rowCost (callgraph : CallGraph F R) (f g : F) : R :=
  match callgraph.getFunctionNode f with
  | none => 0
  | some node =>
    (node.inEdges.map fun edge => if edge.getSource = g then callNum edge else 0).sum +
      (node.outEdges.map fun edge => if edge.getSink = g then callNum edge else 0).sum

theorem foldl_candidates (callgraph : CallGraph F R) {candidates : List F}
    (hnodup : candidates.Nodup) (costs : F → F → R) (f g : F) :
    candidates.foldl (fun costs f =>
      match callgraph.getFunctionNode f with
      | none => costs
      | some node =>
        node.outEdges.foldl (fun costs edge => addEdgeCost f edge.getSink (callNum edge) costs)
          (node.inEdges.foldl (fun costs edge => addEdgeCost f edge.getSource (callNum edge) costs)
            costs)) costs f g =
      costs f g + if f ∈ candidates then rowCost callgraph f g else 0 := by
  induction candidates generalizing costs with
  | nil => simp
  | cons c cs ih =>
    rw [List.nodup_cons] at hnodup
    rw [List.foldl_cons, ih hnodup.2]
    by_cases hf : f = c
    · subst hf
      rw [if_neg hnodup.1, if_pos List.mem_cons_self]
      unfold rowCost
      cases callgraph.getFunctionNode f with
      | none => rfl
      | some node => simp only [foldl_addEdgeCost, if_true, add_zero, add_assoc]
    · have hrow : (if f ∈ c :: cs then rowCost callgraph f g else 0) =
          if f ∈ cs then rowCost callgraph f g else 0 := by simp [hf]
      rw [hrow]
      cases callgraph.getFunctionNode c with
      | none => rfl
      | some node => simp only [foldl_addEdgeCost, if_neg hf, add_zero]

/-- The cost between a candidate and another function, from the candidate's own edges. -/
theorem computeCandidateEdgeCosts_rowCost (callgraph : CallGraph F R) {candidates : List F}
    (hnodup : candidates.Nodup) {f : F} (hf : f ∈ candidates) (g : F) :
    computeCandidateEdgeCosts callgraph candidates f g = rowCost callgraph f g := by
  unfold computeCandidateEdgeCosts
  rw [foldl_candidates callgraph hnodup, if_pos hf, zero_add]

omit [CommRing R] in
theorem exists_node {callgraph : CallGraph F R} {f : F}
    (h : callgraph.hasFunctionNode f = true) : ∃ node, callgraph.getFunctionNode f = some node :=
  Option.isSome_iff_exists.1 h

/-- Sums over the edges at a node, taken over all arcs. -/
theorem sum_edges {callgraph : CallGraph F R} (h : CopiesAgree callgraph) {f : F} {node : Node F R}
    (hnode : callgraph.getFunctionNode f = some node) (φ : Cut.Arc F R → R) :
    (((arcs callgraph).filter (·.dst = f)).map φ).sum =
        (node.inEdges.map fun edge => φ (toArc edge)).sum ∧
      (((arcs callgraph).filter (·.src = f)).map φ).sum =
        (node.outEdges.map fun edge => φ (toArc edge)).sum := by
  obtain ⟨hmem, rfl⟩ := CallGraph.getFunctionNode_eq_some hnode
  constructor
  · rw [← ((h.copies node hmem).map φ).sum_eq, List.map_map]
    rfl
  · rw [filter_src_arcs h hmem, List.map_map]
    rfl

/-- Adding edges to internal and external cost changes their difference by the edges' sides. -/
theorem foldl_costs (S : Finset F) (other : Edge F R → F) (edges : List (Edge F R)) (costs : R × R) :
    let total := edges.foldl (fun costs edge =>
      if other edge ∈ S then (costs.1 + callNum edge, costs.2)
      else (costs.1, costs.2 + callNum edge)) costs
    total.2 - total.1 = costs.2 - costs.1 +
      (edges.map fun edge => Cut.side S (other edge) (callNum edge)).sum := by
  induction edges generalizing costs with
  | nil => simp
  | cons edge edges ih =>
    dsimp only at ih ⊢
    rw [List.foldl_cons, ih, List.map_cons, List.sum_cons]
    unfold Cut.side
    split
    · ring
    · ring

/-- External minus internal cost, as a sum over the node's edges. -/
theorem getFunctionCosts_sub (insecure : Partition F G) (node : Node F R) :
    (getFunctionCosts insecure node).2 - (getFunctionCosts insecure node).1 =
      (node.inEdges.map fun edge =>
          Cut.side insecure.partition edge.getSource (callNum edge)).sum +
        (node.outEdges.map fun edge =>
          Cut.side insecure.partition edge.getSink (callNum edge)).sum := by
  unfold getFunctionCosts
  rw [foldl_costs, foldl_costs, sub_zero, zero_add]

/-- Moving `g` turns the edges of a node with `g` from internal into external ones. -/
theorem initialMoveGain_removeFromPartition (callgraph : CallGraph F R) {P : Partition F G} {g : F}
    (hg : g ∈ P.partition) (f : F) :
    initialMoveGain callgraph (P.removeFromPartition g) f =
      initialMoveGain callgraph P f + (2 : ℤ) • rowCost callgraph f g := by
  unfold initialMoveGain rowCost
  cases callgraph.getFunctionNode f with
  | none => simp
  | some node =>
    dsimp only
    rw [getFunctionCosts_sub, getFunctionCosts_sub, Partition.partition_removeFromPartition,
      Cut.sum_side_erase hg, Cut.sum_side_erase hg, zsmul_add]
    ring

/-- External minus internal cost is what the candidate gains. -/
theorem initialMoveGain_eq {callgraph : CallGraph F R} (h : CopiesAgree callgraph)
    (insecure : Partition F G) {f : F} (hnode : callgraph.hasFunctionNode f = true) :
    initialMoveGain callgraph insecure f =
      Cut.gain (arcs callgraph) insecure.partition f + nodeCost callgraph f := by
  obtain ⟨node, hnode⟩ := exists_node hnode
  have hcosts : (getFunctionCosts insecure node).2 - (getFunctionCosts insecure node).1 =
      Cut.gain (arcs callgraph) insecure.partition f := by
    unfold Cut.gain
    rw [(sum_edges h hnode _).1, (sum_edges h hnode _).2, getFunctionCosts_sub]
    rfl
  unfold initialMoveGain
  rw [hnode, ← hcosts]

section Loop

variable {callgraph : CallGraph F R} {secure insecure : Partition F G} {candidates : List F}
  {s s' t : State F G R}

omit [CommRing R] in
theorem Moved.insecure_eq (hm : Moved secure insecure candidates s) :
    s.insecurePartition.partition = Cut.eraseAll insecure.partition s.functionMoveGains := by
  rw [hm.insecure, Partition.foldl_removeFromPartition]
  ext f
  simp [Cut.mem_eraseAll]

omit [CommRing R] in
theorem Moved.candidate (hm : Moved secure insecure candidates s) {f : F} (hf : f ∈ s.candidates) :
    f ∈ candidates :=
  hm.perm.mem_iff.1 (List.mem_append_right _ hf)

omit [CommRing R] in
/-- The candidates left have not been moved. -/
theorem Moved.mem_insecure (hm : Moved secure insecure candidates s) (hnodup : candidates.Nodup)
    (hinsecure : ∀ f ∈ candidates, f ∈ insecure.partition) {f : F} (hf : f ∈ s.candidates) :
    f ∈ s.insecurePartition.partition := by
  rw [hm.insecure_eq, Cut.mem_eraseAll]
  refine ⟨hinsecure f (hm.candidate hf), fun hmoved => ?_⟩
  exact List.disjoint_of_nodup_append (hm.perm.nodup_iff.2 hnodup) hmoved hf

/-- The gains kept for the candidates left are those before the last move. -/
def UpToDate (callgraph : CallGraph F R) (s : State F G R) : Prop :=
  ∀ g, s.movedF = some g → ∃ P : Partition F G, g ∈ P.partition ∧
    s.insecurePartition = P.removeFromPartition g ∧
    s.moveGains = s.candidates.map (initialMoveGain callgraph P)

/-- **The incremental update computes what the initial computation would.**  The two copies of an
edge need not agree. -/
theorem UpToDate.computeMoveGains_eq (hnodup : candidates.Nodup)
    (hm : Moved secure insecure candidates s) (hu : UpToDate callgraph s) :
    computeMoveGains callgraph (computeCandidateEdgeCosts callgraph candidates) s =
      s.candidates.map (initialMoveGain callgraph s.insecurePartition) := by
  unfold computeMoveGains
  cases hmoved : s.movedF with
  | none => rfl
  | some g =>
    obtain ⟨P, hg, hins, hgains⟩ := hu g hmoved
    dsimp only
    rw [hgains, List.zipWith_map_right, List.zipWith_self, hins]
    refine List.map_congr_left fun f hf => ?_
    rw [computeCandidateEdgeCosts_rowCost callgraph hnodup (hm.candidate hf),
      initialMoveGain_removeFromPartition callgraph hg]

theorem UpToDate.step [LT R] [DecidableLT R] (hnodup : candidates.Nodup)
    (hinsecure : ∀ f ∈ candidates, f ∈ insecure.partition)
    (hm : Moved secure insecure candidates s) (hu : UpToDate callgraph s)
    (hst : KLOptimizationPass.step callgraph (computeCandidateEdgeCosts callgraph candidates) s =
      some s') : UpToDate callgraph s' := by
  obtain ⟨idx, f, gain, hf, -, rfl⟩ := step_cases hst
  intro g hg
  cases hg
  refine ⟨s.insecurePartition, hm.mem_insecure hnodup hinsecure (List.mem_of_getElem? hf), rfl, ?_⟩
  rw [hu.computeMoveGains_eq hnodup hm, List.eraseIdx_map]

/-- The candidates that the moves have left, in their order. -/
def leftBy (candidates : List F) (moves : List (F × R)) : List F :=
  candidates.filter fun f => f ∉ moves.map (·.1)

/-- Each move takes, of the candidates that the moves before it have left, the first one with the
largest gain, computed from scratch against the insecure partition as it is then. -/
def Greedy (callgraph : CallGraph F R) [LT R] [LE R] (insecure : Partition F G)
    (candidates : List F) (moves : List (F × R)) : Prop :=
  ∀ before f gain after, moves = before ++ (f, gain) :: after →
    let gainOf := initialMoveGain callgraph
      ((before.map (·.1)).foldl (fun P f => P.removeFromPartition f) insecure)
    ∃ passed others, leftBy candidates before = passed ++ f :: others ∧ gain = gainOf f ∧
      (∀ c ∈ passed, gainOf c < gain) ∧ ∀ c ∈ others, gainOf c ≤ gain

/-- What one iteration chooses, when the gains are `gainOf`. -/
theorem step_greedy [LinearOrder R] {edgeCosts : F → F → R} {gainOf : F → R}
    (hgains : computeMoveGains callgraph edgeCosts s = s.candidates.map gainOf)
    (hst : KLOptimizationPass.step callgraph edgeCosts s = some s') :
    ∃ passed f others, s.candidates = passed ++ f :: others ∧
      s'.candidates = passed ++ others ∧
      s'.functionMoveGains = s.functionMoveGains ++ [(f, gainOf f)] ∧
      (∀ c ∈ passed, gainOf c < gainOf f) ∧ ∀ c ∈ others, gainOf c ≤ gainOf f := by
  unfold KLOptimizationPass.step at hst
  split at hst
  · cases hst
  · next hne =>
    dsimp only at hst
    rw [hgains] at hst
    have hnil : s.candidates.map gainOf ≠ [] := by simpa using hne
    obtain ⟨l₁, x, l₂, hsplit, hidx, hbefore, hafter⟩ := BestPrefix.maxElement_split hnil
    obtain ⟨passed, rest, hcandidates, rfl, hrest⟩ := List.map_eq_append_iff.1 hsplit
    obtain ⟨f, others, rfl, rfl, rfl⟩ := List.map_eq_cons_iff.1 hrest
    rw [List.length_map] at hidx
    unfold moveFunction at hst
    rw [← hidx] at hst
    simp only [hcandidates, List.map_append, List.map_cons, List.getElem?_append_right le_rfl,
      List.getElem?_append_right (List.length_map gainOf).le, List.length_map, Nat.sub_self,
      List.getElem?_cons_zero] at hst
    cases hst
    refine ⟨passed, f, others, hcandidates, ?_, rfl, fun c hc => ?_, fun c hc => ?_⟩
    · simp [List.eraseIdx_append_of_length_le]
    · exact hbefore _ (List.mem_map_of_mem hc)
    · exact hafter _ (List.mem_map_of_mem hc)

/-- The moves are greedy so far, and the candidates are those that they have left. -/
structure Chosen (callgraph : CallGraph F R) [LT R] [LE R] (insecure : Partition F G)
    (candidates : List F) (s : State F G R) : Prop where
  greedy : Greedy callgraph insecure candidates s.functionMoveGains
  left : s.candidates = leftBy candidates s.functionMoveGains

theorem Chosen.step [LinearOrder R] (hnodup : candidates.Nodup)
    (hm : Moved secure insecure candidates s) (hu : UpToDate callgraph s)
    (hc : Chosen callgraph insecure candidates s)
    (hst : KLOptimizationPass.step callgraph (computeCandidateEdgeCosts callgraph candidates) s =
      some s') : Chosen callgraph insecure candidates s' := by
  obtain ⟨passed, f, others, hleft, hleft', hmoves, hpassed, hothers⟩ :=
    step_greedy (hu.computeMoveGains_eq hnodup hm) hst
  rw [hc.left] at hleft
  constructor
  · rw [hmoves]
    intro before g gain after heq
    rcases List.eq_nil_or_concat' after with rfl | ⟨after, last, rfl⟩
    · -- the new move
      obtain ⟨rfl, hlast⟩ := List.append_inj' heq rfl
      obtain ⟨rfl, rfl⟩ := Prod.mk.inj (List.singleton_inj.1 hlast)
      rw [← hm.insecure]
      exact ⟨passed, others, hleft, rfl, hpassed, hothers⟩
    · -- one of the moves before it
      rw [← List.cons_append, ← List.append_assoc] at heq
      exact hc.greedy before g gain after (List.append_inj' heq rfl).1
  · have hf : ∀ c ∈ passed ++ others, c ≠ f := by
      have hnodup' : (passed ++ f :: others).Nodup := hleft ▸ hnodup.filter _
      rintro c hc rfl
      exact (List.nodup_middle.1 hnodup').notMem hc
    have hfilter : leftBy candidates s'.functionMoveGains =
        (leftBy candidates s.functionMoveGains).filter (· ≠ f) := by
      rw [hmoves, leftBy, leftBy, List.filter_filter]
      refine List.filter_congr fun c _ => ?_
      rw [← Bool.decide_and, decide_eq_decide, List.map_append, List.mem_append, not_or, and_comm,
        List.map_singleton, List.mem_singleton]
    rw [hleft', hfilter, hleft, List.filter_append, List.filter_cons_of_neg (by simp),
      ← List.filter_append]
    exact (List.filter_eq_self.2 fun c hc => decide_eq_true (hf c hc)).symm

/-- The recorded gains are gains, and those of the candidates left are the gains before the last
move. -/
structure Gains (callgraph : CallGraph F R) (insecure : Partition F G) (s : State F G R) : Prop where
  moves : Cut.Moves (arcs callgraph) (nodeCost callgraph) insecure.partition s.functionMoveGains
  current : ∀ f, s.movedF = some f → ∃ S, f ∈ S ∧ s.insecurePartition.partition = S.erase f ∧
    s.moveGains = s.candidates.map fun c => Cut.gain (arcs callgraph) S c + nodeCost callgraph c

theorem Gains.upToDate (h : CopiesAgree callgraph)
    (hnode : ∀ f ∈ candidates, callgraph.hasFunctionNode f = true)
    (hm : Moved secure insecure candidates s) (hg : Gains callgraph insecure s) :
    UpToDate callgraph s := by
  intro f hf
  obtain ⟨S, hS, hins, hgains⟩ := hg.current f hf
  refine ⟨{ s.insecurePartition with partition := S }, hS, ?_, ?_⟩
  · rw [Partition.removeFromPartition, ← hins]
  · rw [hgains]
    refine List.map_congr_left fun c hc => ?_
    exact (initialMoveGain_eq h { s.insecurePartition with partition := S }
      (hnode c (hm.candidate hc))).symm

/-- **The incremental update computes the gains of all candidates left.** -/
theorem computeMoveGains_eq (h : CopiesAgree callgraph) (hnodup : candidates.Nodup)
    (hnode : ∀ f ∈ candidates, callgraph.hasFunctionNode f = true)
    (hm : Moved secure insecure candidates s) (hg : Gains callgraph insecure s) :
    computeMoveGains callgraph (computeCandidateEdgeCosts callgraph candidates) s =
      s.candidates.map fun c =>
        Cut.gain (arcs callgraph) s.insecurePartition.partition c + nodeCost callgraph c := by
  rw [(hg.upToDate h hnode hm).computeMoveGains_eq hnodup hm]
  exact List.map_congr_left fun c hc =>
    initialMoveGain_eq h s.insecurePartition (hnode c (hm.candidate hc))

variable [LinearOrder R]

theorem Gains.step (h : CopiesAgree callgraph) (hnodup : candidates.Nodup)
    (hinsecure : ∀ f ∈ candidates, f ∈ insecure.partition)
    (hnode : ∀ f ∈ candidates, callgraph.hasFunctionNode f = true)
    (hm : Moved secure insecure candidates s) (hg : Gains callgraph insecure s)
    (hst : KLOptimizationPass.step callgraph (computeCandidateEdgeCosts callgraph candidates) s =
      some s') : Gains callgraph insecure s' := by
  obtain ⟨idx, f, gain, hf, hgain, rfl⟩ := step_cases hst
  obtain ⟨hidx, hget⟩ := List.getElem?_eq_some_iff.1 hf
  have hmem := hm.mem_insecure hnodup hinsecure (List.mem_of_getElem? hf)
  rw [computeMoveGains_eq h hnodup hnode hm hg, List.getElem?_map, hf] at hgain
  refine ⟨hg.moves.concat ?_ ?_, fun f' hf' => ?_⟩
  · exact hm.insecure_eq ▸ hmem
  · rw [← hm.insecure_eq]
    exact (Option.some.inj hgain).symm
  · cases hf'
    refine ⟨s.insecurePartition.partition, hmem, rfl, ?_⟩
    rw [computeMoveGains_eq h hnodup hnode hm hg, List.eraseIdx_map]

theorem chosen_moveAll (hnodup : candidates.Nodup)
    (hinsecure : ∀ f ∈ candidates, f ∈ insecure.partition)
    (ht : moveAll callgraph secure insecure candidates = some t) :
    Chosen callgraph insecure candidates t := by
  have hstart : Chosen callgraph insecure candidates
      ⟨secure, insecure, candidates, [], [], none⟩ :=
    ⟨fun before f gain after heq => (List.append_ne_nil_of_right_ne_nil _
      (List.cons_ne_nil _ _) heq.symm).elim, (List.filter_eq_self.2 fun f _ => by simp).symm⟩
  refine (whileSome_induct (P := fun s => Moved secure insecure candidates s ∧
    UpToDate callgraph s ∧ Chosen callgraph insecure candidates s) (fun s s' hs _ hst => ?_) _ _ t
    ⟨⟨.refl _, rfl, rfl, fun h => absurd rfl h⟩, by exact ⟨fun _ hf => (by cases hf), hstart⟩⟩
    ht).1.2.2
  obtain ⟨hm, hu, hc⟩ := hs
  exact ⟨hm.step hst, hu.step hnodup hinsecure hm hst, hc.step hnodup hm hu hst⟩

theorem gains_moveAll (h : CopiesAgree callgraph) (hnodup : candidates.Nodup)
    (hinsecure : ∀ f ∈ candidates, f ∈ insecure.partition)
    (hnode : ∀ f ∈ candidates, callgraph.hasFunctionNode f = true)
    (ht : moveAll callgraph secure insecure candidates = some t) :
    Gains callgraph insecure t :=
  (whileSome_induct
    (P := fun s => Moved secure insecure candidates s ∧ Gains callgraph insecure s)
    (fun _ _ hs _ hst => ⟨hs.1.step hst, hs.2.step h hnodup hinsecure hnode hs.1 hst⟩) _ _ t
    ⟨⟨.refl _, rfl, rfl, fun h => absurd rfl h⟩, by exact ⟨trivial, fun _ hf => by cases hf⟩⟩
    ht).1.2

end Loop

/-! ## Top theorem -/

/-- **The pass keeps the best prefix of the greedy moves.**  `t` is the state after the last move,
its `functionMoveGains` are the moves and their recorded gains: each of a candidate with the largest
gain.  The pass moves the functions of the longest prefix with the largest sum of gains, nothing else
changes sides, and the cut between the insecure partition and its complement grows by the node costs
of the moved functions at most. -/
theorem run_keeps_best_prefix [LinearOrder R] [IsOrderedAddMonoid R] (callgraph : CallGraph F R)
    (h : CopiesAgree callgraph) (hweight : ∀ arc ∈ arcs callgraph, 0 ≤ arc.weight)
    (secure insecure : Partition F G) (hdisj : Disjoint secure.partition insecure.partition)
    (candidates : List F) (hnodup : candidates.Nodup)
    (hinsecure : ∀ f ∈ candidates, f ∈ insecure.partition)
    (hnode : ∀ f ∈ candidates, callgraph.hasFunctionNode f = true) :
    ∃ t k secure' insecure', moveAll callgraph secure insecure candidates = some t ∧
      (t.functionMoveGains.map (·.1)).Perm candidates ∧
      Greedy callgraph insecure candidates t.functionMoveGains ∧
      BestPrefix.Best (t.functionMoveGains.map (·.2)) t.functionMoveGains.length k ∧
      run callgraph secure insecure candidates = some (secure', insecure') ∧
      let moved := (t.functionMoveGains.take k).map (·.1)
      (∀ f ∈ moved, f ∈ secure'.partition ∧ f ∉ insecure'.partition) ∧
      (∀ f ∈ candidates, f ∉ moved → f ∈ insecure'.partition ∧ f ∉ secure'.partition) ∧
      (∀ f, f ∉ candidates → (f ∈ secure'.partition ↔ f ∈ secure.partition) ∧
        (f ∈ insecure'.partition ↔ f ∈ insecure.partition)) ∧
      Cut.cut (arcs callgraph) insecure'.partition - Cut.cut (arcs callgraph) insecure.partition ≤
        (moved.map (nodeCost callgraph)).sum := by
  have hsecure : ∀ f ∈ candidates, f ∉ secure.partition := fun f hf hs =>
    Finset.disjoint_left.1 hdisj hs (hinsecure f hf)
  obtain ⟨t, ht, hperm, hrun⟩ := run_eq hnodup hinsecure hsecure hnode
  have hmoves := (gains_moveAll h hnodup hinsecure hnode ht).moves.take
    (BestPrefix.bestPrefix (t.functionMoveGains.map (·.2)))
  have hbest := BestPrefix.best_bestPrefix (t.functionMoveGains.map (·.2))
  have hgain := BestPrefix.bestPrefix_nonneg (t.functionMoveGains.map (·.2))
  rw [List.length_map] at hbest
  rw [← List.map_take] at hgain
  refine ⟨t, _, _, _, ht, hperm, (chosen_moveAll hnodup hinsecure ht).greedy, hbest, hrun, ?_⟩
  have hkept : (t.functionMoveGains.take
      (BestPrefix.bestPrefix (t.functionMoveGains.map (·.2)))).map (·.1) = keptMoves t := rfl
  dsimp only
  rw [Partition.partition_foldl_removeRelatedFunction, hkept]
  refine ⟨fun f hf => ?_, fun f hf hkept => ?_, fun f hf => ?_, ?_⟩
  · simp [hf]
  · simp [hkept, hinsecure f hf, hsecure f hf]
  · have hkept : f ∉ keptMoves t := fun hkept => hf (mem_of_mem_keptMoves hperm hkept)
    simp [hkept]
  · have hleft : insecure.partition \ (keptMoves t).toFinset = Cut.eraseAll insecure.partition
        (t.functionMoveGains.take (BestPrefix.bestPrefix (t.functionMoveGains.map (·.2)))) := by
      ext f
      simp [Cut.mem_eraseAll, keptMoves]
    have hcut := hmoves.cut_le hweight hgain
    rw [hleft, sub_le_iff_le_add', keptMoves, List.map_map]
    exact hcut

end Exact

/-- `0` calls `1` three times, `1` calls `2` twice, `2` is recursive. -/
def recursiveGraph : CallGraph (Fin 3) ℤ where
  functionNodes :=
    [{ getFunction := 0, outEdges := [callEdge 0 1 3], getWeight := Weight.new },
      { getFunction := 1, inEdges := [callEdge 0 1 3], outEdges := [callEdge 1 2 2],
        getWeight := Weight.new },
      { getFunction := 2, inEdges := [callEdge 1 2 2, callEdge 2 2 1],
        outEdges := [callEdge 2 2 1], getWeight := Weight.new }]

theorem recursiveGraph_keeps_best_prefix :
    ∃ t k P, moveAll recursiveGraph ({ partition := {0} } : Partition (Fin 3) Empty)
        { partition := {1, 2} } [1, 2] = some t ∧
      Greedy recursiveGraph ({ partition := {1, 2} } : Partition (Fin 3) Empty) [1, 2]
        t.functionMoveGains ∧
      BestPrefix.Best (t.functionMoveGains.map (·.2)) t.functionMoveGains.length k ∧
      run recursiveGraph ({ partition := {0} } : Partition (Fin 3) Empty)
        { partition := {1, 2} } [1, 2] = some P := by
  obtain ⟨t, k, secure', insecure', ht, -, hgreedy, hbest, hrun, -⟩ :=
    run_keeps_best_prefix recursiveGraph
      ⟨⟨by decide, by decide, by decide⟩, by decide⟩ (by decide)
      ({ partition := {0} } : Partition (Fin 3) Empty) { partition := {1, 2} } (by decide)
      [1, 2] (by decide) (by decide) (by decide)
  exact ⟨t, k, _, ht, hgreedy, hbest, hrun⟩

end KLOptimizationPass

end Vazgen
