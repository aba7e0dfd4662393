import Vazgen.Analysis.CallGraphWeights
import Vazgen.Lib.Rescale

/-!
# Normalised weights

`normalizeWeights` rescales the values of each factor, in place.  `normalizeValues` is what it does to
the list of the values; `factor?_normalizeWeights` connects it to the loop through the pointers, and
the lemmas before it say which values the other loops of `assignWeights` leave as they are.

**`normalizeValues_comparable`**: the values keep their order; unless all are equal, they come to lie
in the unit interval, and the unit they were measured in does not matter.
-/

namespace Vazgen

namespace WeightAssigningHelper

variable {F G V N R : Type}

/-! ## The values of one factor -/

section Values

/-- `normalizeWeights` on the values that the pointers point to. -/
def normalizeValues [Zero R] [Sub R] [Div R] [LT R] [DecidableLT R] [DecidableEq R] :
    List R → List R
  | [] => [] -- not called on an empty list
  | first :: values =>
    let min := values.foldl (fun min value => if value < min then value else min) first
    let max := values.foldl (fun max value => if max < value then value else max) first
    let diff := max - min
    (first :: values).map fun value => if diff = 0 then min else (value - min) / diff

variable [Field R] [LinearOrder R]

/-- The values are rescaled from their extremes. -/
theorem exists_normalizeValues {weights : List R} (hne : weights ≠ []) :
    ∃ min max, Rescale.Extremes weights min max ∧
      normalizeValues weights = weights.map (Rescale.rescale min max) := by
  cases weights with
  | nil => exact absurd rfl hne
  | cons first values => exact ⟨_, _, Rescale.extremes_foldl first values, rfl⟩

theorem normalizeValues_eq {weights : List R} {min max : R}
    (h : Rescale.Extremes weights min max) :
    normalizeValues weights = weights.map (Rescale.rescale min max) := by
  obtain ⟨min', max', h', heq⟩ := exists_normalizeValues (List.ne_nil_of_mem h.lo_mem)
  obtain ⟨rfl, rfl⟩ := h.unique h'
  exact heq

variable [IsStrictOrderedRing R]

/-- The normalised values stand in the order of the values. -/
theorem normalizeValues_order (weights : List R) {i j : Nat} {a b a' b' : R}
    (ha : weights[i]? = some a) (hb : weights[j]? = some b)
    (ha' : (normalizeValues weights)[i]? = some a') (hb' : (normalizeValues weights)[j]? = some b') :
    (a' < b' ↔ a < b) ∧ (a' = b' ↔ a = b) := by
  obtain ⟨min, max, hextremes, heq⟩ := exists_normalizeValues (List.ne_nil_of_mem
    (List.mem_of_getElem? ha))
  rw [heq, List.getElem?_map, ha, Option.map_some, Option.some.injEq] at ha'
  rw [heq, List.getElem?_map, hb, Option.map_some, Option.some.injEq] at hb'
  subst ha' hb'
  have ha := hextremes.mem_Icc a (List.mem_of_getElem? ha)
  have hb := hextremes.mem_Icc b (List.mem_of_getElem? hb)
  exact ⟨Rescale.rescale_lt_rescale_iff ha hb, Rescale.rescale_inj ha hb⟩

omit [IsStrictOrderedRing R] in
theorem normalizeValues_of_all_eq {weights : List R} (h : ∀ a ∈ weights, ∀ b ∈ weights, a = b) :
    normalizeValues weights = weights := by
  cases weights with
  | nil => rfl
  | cons first values =>
    obtain ⟨min, max, hextremes, heq⟩ := exists_normalizeValues (List.cons_ne_nil first values)
    obtain rfl := hextremes.eq_iff.2 h
    have hself : ∀ x ∈ first :: values, Rescale.rescale min min x = x := fun x hx =>
      Rescale.rescale_self (hextremes.mem_Icc x hx)
    rw [heq, List.map_congr_left hself, List.map_id']

theorem normalizeValues_of_ne {weights : List R} (h : ∃ a ∈ weights, ∃ b ∈ weights, a ≠ b) :
    (∀ a ∈ normalizeValues weights, 0 ≤ a ∧ a ≤ 1) ∧
      ∀ c > 0, normalizeValues (weights.map (c * ·)) = normalizeValues weights := by
  obtain ⟨a, ha, b, hb, hne⟩ := h
  obtain ⟨min, max, hextremes, heq⟩ := exists_normalizeValues (List.ne_nil_of_mem ha)
  have hlt : min < max :=
    lt_of_le_of_ne hextremes.le fun hmin => hne (hextremes.eq_iff.1 hmin a ha b hb)
  constructor
  · rw [heq]
    exact List.forall_mem_map.2 fun x hx => Rescale.rescale_mem_Icc hlt (hextremes.mem_Icc x hx)
  · intro c hc
    rw [normalizeValues_eq (hextremes.mul hc), heq, List.map_map]
    exact List.map_congr_left fun x _ => Rescale.rescale_mul hc.ne' hlt.ne

/-- **Normalised values are comparable** unless all are equal, in which case they stay. -/
theorem normalizeValues_comparable (weights : List R) :
    (normalizeValues weights).length = weights.length ∧
      (∀ (i j : Nat) (a b a' b' : R), weights[i]? = some a → weights[j]? = some b →
        (normalizeValues weights)[i]? = some a' → (normalizeValues weights)[j]? = some b' →
        (a' < b' ↔ a < b) ∧ (a' = b' ↔ a = b)) ∧
      ((∀ a ∈ weights, ∀ b ∈ weights, a = b) → normalizeValues weights = weights) ∧
      ((∃ a ∈ weights, ∃ b ∈ weights, a ≠ b) →
        (∀ a ∈ normalizeValues weights, 0 ≤ a ∧ a ≤ 1) ∧
        ∀ c > 0, normalizeValues (weights.map (c * ·)) = normalizeValues weights) := by
  refine ⟨?_, fun i j a b a' b' => normalizeValues_order weights, normalizeValues_of_all_eq,
    normalizeValues_of_ne⟩
  cases weights with
  | nil => rfl
  | cons first values => exact List.length_map _

/-- Functions of the sizes 1, 3 and 2. -/
theorem normalizeValues_three :
    (∀ a' b', (normalizeValues ([1, 3, 2] : List ℚ))[0]? = some a' →
        (normalizeValues ([1, 3, 2] : List ℚ))[2]? = some b' → a' < b') ∧
      ∀ a ∈ normalizeValues ([1, 3, 2] : List ℚ), 0 ≤ a ∧ a ≤ 1 := by
  obtain ⟨-, horder, -, hrange⟩ := normalizeValues_comparable ([1, 3, 2] : List ℚ)
  refine ⟨fun a' b' ha' hb' => (horder 0 2 1 2 a' b' rfl rfl ha' hb').1.2 (by norm_num), ?_⟩
  exact (hrange ⟨1, by simp, 3, by simp, by norm_num⟩).1

/-- Two functions of the same size. -/
theorem normalizeValues_equal :
    normalizeValues ([5, 5] : List ℚ) = [5, 5] ∧
      (¬ ∀ a ∈ normalizeValues ([5, 5] : List ℚ), 0 ≤ a ∧ a ≤ 1) ∧
      normalizeValues (([5, 5] : List ℚ).map (2 * ·)) ≠ normalizeValues ([5, 5] : List ℚ) := by
  decide +kernel

end Values

/-! ## Pointers -/

section Pointers

variable [DecidableEq F]

theorem getFunctionNode_map (update : Node F R → Node F R)
    (hupdate : ∀ node, (update node).getFunction = node.getFunction) (graph : CallGraph F R) (f : F) :
    CallGraph.getFunctionNode { functionNodes := graph.functionNodes.map update } f =
      (graph.getFunctionNode f).map update := by
  unfold CallGraph.getFunctionNode
  rw [List.find?_map]
  simp only [Function.comp_def, hupdate]

theorem getFunctionNode_updateNode {update : Node F R → Node F R}
    (hupdate : ∀ node, (update node).getFunction = node.getFunction) (graph : CallGraph F R)
    (f g : F) : (graph.updateNode f update).getFunctionNode g =
      if g = f then (graph.getFunctionNode g).map update else graph.getFunctionNode g := by
  unfold CallGraph.updateNode
  rw [getFunctionNode_map _ fun node => by split <;> simp only [hupdate]]
  cases hnode : graph.getFunctionNode g with
  | none => simp
  | some node =>
    rw [Option.map_some, Option.map_some, (CallGraph.getFunctionNode_eq_some hnode).2]
    split <;> rfl

/-- The factor that a pointer points into. -/
def WeightRef.factor? (graph : CallGraph F R) (factor : Factor) :
    WeightRef F → Option (WeightFactor R)
  | .node f => (graph.getFunctionNode f).map fun node => node.getWeight.getFactor factor
  | .inEdge f i => ((graph.getFunctionNode f).bind fun node => node.inEdges[i]?).map fun edge =>
    edge.getWeight.getFactor factor

theorem WeightRef.get?_eq (graph : CallGraph F R) (factor : Factor) (ref : WeightRef F) :
    ref.get? graph factor = (ref.factor? graph factor).map (·.getValue) := by
  cases ref with
  | node f => exact (Option.map_map _ _ _).symm
  | inEdge f i => exact (Option.map_map _ _ _).symm

theorem WeightRef.factor?_set_self (graph : CallGraph F R) (factor : Factor) (value : R)
    (ref : WeightRef F) : ref.factor? (ref.set graph factor value) factor =
      (ref.factor? graph factor).map (·.setValue value) := by
  cases ref with
  | node f =>
    simp only [WeightRef.factor?, WeightRef.set, getFunctionNode_updateNode, implies_true, if_true,
      Option.map_map]
    simp [Function.comp_def, Weight.setValue]
  | inEdge f i =>
    simp only [WeightRef.factor?, WeightRef.set, getFunctionNode_updateNode, implies_true, if_true]
    cases graph.getFunctionNode f with
    | none => rfl
    | some node => simp [Function.comp_def, Weight.setValue]

/-- A pointer sees nothing of a change to another factor, or to the weight of another node. -/
theorem WeightRef.factor?_updateWeight_of_ne (graph : CallGraph F R) (update : Weight R → Weight R)
    {factor factor' : Factor} {f : F} {ref' : WeightRef F}
    (hupdate : factor' ≠ factor → ∀ w, (update w).getFactor factor' = w.getFactor factor')
    (hne : factor' ≠ factor ∨ ref' ≠ .node f) :
    ref'.factor? (graph.updateNode f fun node =>
        { node with getWeight := update node.getWeight }) factor' = ref'.factor? graph factor' := by
  cases ref' with
  | node f' =>
    simp only [WeightRef.factor?, getFunctionNode_updateNode, implies_true]
    split
    · next hf =>
      have hfactor : factor' ≠ factor := hne.resolve_right fun h => h (hf ▸ rfl)
      rw [Option.map_map]
      simp only [Function.comp_def, hupdate hfactor]
    · rfl
  | inEdge f' i' =>
    simp only [WeightRef.factor?, getFunctionNode_updateNode, implies_true]
    split
    · rw [Option.bind_map]
      rfl
    · rfl

/-- A pointer sees nothing of a change to another factor or through another pointer. -/
theorem WeightRef.factor?_set_of_ne (graph : CallGraph F R) {factor factor' : Factor} (value : R)
    {ref ref' : WeightRef F} (hne : factor' ≠ factor ∨ ref' ≠ ref) :
    ref'.factor? (ref.set graph factor value) factor' = ref'.factor? graph factor' := by
  cases ref with
  | node f =>
    refine WeightRef.factor?_updateWeight_of_ne graph (fun w => w.setValue factor value)
      (fun hfactor w => ?_) hne
    simp [Weight.setValue, hfactor]
  | inEdge f i =>
    cases ref' with
    | node f' =>
      simp only [WeightRef.factor?, WeightRef.set, getFunctionNode_updateNode, implies_true]
      split
      · rw [Option.map_map]
        rfl
      · rfl
    | inEdge f' i' =>
      simp only [WeightRef.factor?, WeightRef.set, getFunctionNode_updateNode, implies_true]
      split
      · next hf =>
        cases graph.getFunctionNode f' with
        | none => rfl
        | some node =>
          simp only [Option.map_some, Option.bind_some, List.getElem?_modify]
          split
          · next hi =>
            have hfactor : factor' ≠ factor := hne.resolve_right fun h => h (hf ▸ hi ▸ rfl)
            rw [Option.map_eq_map, Option.map_map]
            simp [Function.comp_def, Weight.setValue, hfactor]
          · simp
      · rfl

/-! ## What each loop leaves as it is -/

/-- No pointer sees a change of the factor. -/
def FactorKept (factor : Factor) (graph graph' : CallGraph F R) : Prop :=
  ∀ ref : WeightRef F, ref.factor? graph' factor = ref.factor? graph factor

def OutEdgesKept (graph graph' : CallGraph F R) : Prop :=
  ∀ f, (graph'.getFunctionNode f).map (·.outEdges) = (graph.getFunctionNode f).map (·.outEdges)

/-- The loop through the pointers. -/
def changeValues (factor : Factor) (change : R → R) (refs : List (WeightRef F))
    (graph : CallGraph F R) : CallGraph F R :=
  refs.foldl (fun graph ref =>
    match ref.get? graph factor with
    | none => graph
    | some value => ref.set graph factor (change value)) graph

section Change

variable {factor factor' : Factor} {change : R → R} {refs : List (WeightRef F)}
  {graph graph' graph'' : CallGraph F R} {ref : WeightRef F}

theorem FactorKept.trans (h : FactorKept factor graph graph') (h' : FactorKept factor graph' graph'') :
    FactorKept factor graph graph'' := fun ref => (h' ref).trans (h ref)

theorem FactorKept.get?_eq (h : FactorKept factor graph graph') :
    WeightRef.get? graph' factor = WeightRef.get? graph factor := by
  funext ref
  rw [WeightRef.get?_eq, WeightRef.get?_eq, h]

theorem OutEdgesKept.trans (h : OutEdgesKept graph graph') (h' : OutEdgesKept graph' graph'') :
    OutEdgesKept graph graph'' := fun f => (h' f).trans (h f)

theorem OutEdgesKept.exists_node (h : OutEdgesKept graph graph') {f : F} {node : Node F R}
    (hnode : graph'.getFunctionNode f = some node) :
    ∃ node₀, graph.getFunctionNode f = some node₀ ∧ node₀.outEdges = node.outEdges := by
  have hf := h f
  rw [hnode] at hf
  exact Option.map_eq_some_iff.1 hf.symm

/-- The first step of the loop. -/
theorem changeValues_cons (value : R) (hvalue : ref.get? graph factor = some value) :
    changeValues factor change (ref :: refs) graph =
      changeValues factor change refs (ref.set graph factor (change value)) := by
  unfold changeValues
  rw [List.foldl_cons, hvalue]

theorem changeValues_cons_of_none (hvalue : ref.get? graph factor = none) :
    changeValues factor change (ref :: refs) graph = changeValues factor change refs graph := by
  unfold changeValues
  rw [List.foldl_cons, hvalue]

/-- A pointer that is not in the list, or reads another factor, sees nothing of the loop. -/
theorem factor?_changeValues_of_ne (hne : factor' ≠ factor ∨ ref ∉ refs) :
    ref.factor? (changeValues factor change refs graph) factor' = ref.factor? graph factor' := by
  induction refs generalizing graph with
  | nil => rfl
  | cons first refs ih =>
    have htail := hne.imp_right fun h hmem => h (List.mem_cons_of_mem first hmem)
    cases hvalue : first.get? graph factor with
    | none => rw [changeValues_cons_of_none hvalue, ih htail]
    | some value =>
      rw [changeValues_cons value hvalue, ih htail, WeightRef.factor?_set_of_ne]
      exact hne.imp_right fun h heq => h (heq ▸ List.mem_cons_self)

theorem factor?_changeValues_of_mem (hnodup : refs.Nodup) (hmem : ref ∈ refs) :
    ref.factor? (changeValues factor change refs graph) factor =
      (ref.factor? graph factor).map fun w => w.setValue (change w.getValue) := by
  induction refs generalizing graph with
  | nil => cases hmem
  | cons first refs ih =>
    obtain ⟨hfirst, hnodup⟩ := List.nodup_cons.1 hnodup
    rcases List.mem_cons.1 hmem with rfl | hmem
    · cases hvalue : ref.get? graph factor with
      | none =>
        rw [changeValues_cons_of_none hvalue, factor?_changeValues_of_ne (.inr hfirst)]
        rw [WeightRef.get?_eq, Option.map_eq_none_iff] at hvalue
        rw [hvalue]
        rfl
      | some value =>
        rw [changeValues_cons value hvalue, factor?_changeValues_of_ne (.inr hfirst),
          WeightRef.factor?_set_self]
        rw [WeightRef.get?_eq] at hvalue
        obtain ⟨w, hw, rfl⟩ := Option.map_eq_some_iff.1 hvalue
        rw [hw]
        rfl
    · have hne : ref ≠ first := fun h => hfirst (h ▸ hmem)
      cases hvalue : first.get? graph factor with
      | none => rw [changeValues_cons_of_none hvalue, ih hnodup hmem]
      | some value =>
        rw [changeValues_cons value hvalue, ih hnodup hmem, WeightRef.factor?_set_of_ne _ _ (.inr hne)]

theorem outEdgesKept_updateNode {update : Node F R → Node F R}
    (hupdate : ∀ node, (update node).getFunction = node.getFunction)
    (houtEdges : ∀ node, (update node).outEdges = node.outEdges) (f : F) :
    OutEdgesKept graph (graph.updateNode f update) := by
  intro g
  rw [getFunctionNode_updateNode hupdate]
  split
  · rw [Option.map_map]
    simp only [Function.comp_def, houtEdges]
  · rfl

theorem outEdgesKept_set (value : R) : OutEdgesKept graph (ref.set graph factor value) := by
  cases ref with
  | node g =>
    refine outEdgesKept_updateNode (fun node => ?_) (fun node => ?_) g
    · rfl
    · rfl
  | inEdge g i =>
    refine outEdgesKept_updateNode (fun node => ?_) (fun node => ?_) g
    · rfl
    · rfl

theorem outEdgesKept_changeValues : OutEdgesKept graph (changeValues factor change refs graph) := by
  induction refs generalizing graph with
  | nil => exact fun f => rfl
  | cons first refs ih =>
    cases hvalue : first.get? graph factor with
    | none =>
      rw [changeValues_cons_of_none hvalue]
      exact ih
    | some value =>
      rw [changeValues_cons value hvalue]
      exact (outEdgesKept_set (change value)).trans ih

end Change

/-! ## All factors -/

section Normalize

section Kept

variable [Zero R] [Sub R] [Div R] [LT R] [DecidableLT R] [DecidableEq R]

/-- `normalizeWeights` either changes nothing or runs the loop through the pointers. -/
theorem normalizeFactor_eq_or (refs : List (WeightRef F)) (factor : Factor)
    (graph : CallGraph F R) : normalizeFactor refs factor graph = graph ∨
      ∃ change, normalizeFactor refs factor graph = changeValues factor change refs graph := by
  unfold normalizeFactor
  split
  · exact .inl rfl
  · exact .inr ⟨_, rfl⟩

theorem factorKept_normalizeFactor {factor factor' : Factor} (hne : factor' ≠ factor)
    (refs : List (WeightRef F)) (graph : CallGraph F R) :
    FactorKept factor' graph (normalizeFactor refs factor graph) := by
  rcases normalizeFactor_eq_or refs factor graph with h | ⟨change, h⟩
  · rw [h]
    exact fun ref => rfl
  · rw [h]
    exact fun ref => factor?_changeValues_of_ne (.inl hne)

theorem outEdgesKept_normalizeFactor (refs : List (WeightRef F)) (factor : Factor)
    (graph : CallGraph F R) : OutEdgesKept graph (normalizeFactor refs factor graph) := by
  rcases normalizeFactor_eq_or refs factor graph with h | ⟨change, h⟩
  · rw [h]
    exact fun f => rfl
  · rw [h]
    exact outEdgesKept_changeValues

theorem outEdgesKept_normalizeWeights (s : State F R) :
    OutEdgesKept s.callGraph (normalizeWeights s) := by
  unfold normalizeWeights
  generalize Weight.factors = factors
  generalize s.callGraph = graph
  induction factors generalizing graph with
  | nil => exact fun f => rfl
  | cons factor factors ih => exact (outEdgesKept_normalizeFactor _ factor graph).trans (ih _)

theorem factorKept_foldl_normalizeFactor {factor : Factor} {factors : List Factor}
    (hfactor : factor ∉ factors) (refs : Factor → List (WeightRef F)) (graph : CallGraph F R) :
    FactorKept factor graph
      (factors.foldl (fun graph i => normalizeFactor (refs i) i graph) graph) := by
  induction factors generalizing graph with
  | nil => exact fun ref => rfl
  | cons first factors ih =>
    have hne : factor ≠ first := fun h => hfactor (h ▸ List.mem_cons_self)
    exact (factorKept_normalizeFactor hne _ graph).trans
      (ih (fun h => hfactor (List.mem_cons_of_mem first h)) _)

/-- Each factor is normalised once. -/
theorem exists_normalizeWeights (s : State F R) {factor : Factor} (hfactor : factor ≠ .unknown) :
    ∃ graph, FactorKept factor s.callGraph graph ∧
      FactorKept factor (normalizeFactor (s.factorWeights factor) factor graph)
        (normalizeWeights s) := by
  have hmem : factor ∈ Weight.factors := by
    cases factor <;> first | decide | exact absurd rfl hfactor
  have hnodup : Weight.factors.Nodup := by decide
  unfold normalizeWeights
  obtain ⟨before, after, heq⟩ := List.append_of_mem hmem
  rw [heq, List.nodup_middle, List.nodup_cons, List.mem_append, not_or] at hnodup
  rw [heq, List.foldl_append, List.foldl_cons]
  exact ⟨_, factorKept_foldl_normalizeFactor hnodup.1.1 s.factorWeights s.callGraph,
    factorKept_foldl_normalizeFactor hnodup.1.2 s.factorWeights _⟩

end Kept

variable [Field R] [LinearOrder R]

theorem normalizeFactor_eq {refs : List (WeightRef F)} {factor : Factor} {graph : CallGraph F R}
    {min max : R} (h : Rescale.Extremes (refs.filterMap (WeightRef.get? graph factor)) min max) :
    normalizeFactor refs factor graph =
      changeValues factor (Rescale.rescale min max) refs graph := by
  unfold normalizeFactor
  split
  · next hnil =>
    rw [hnil] at h
    cases h.lo_mem
  · next first values hcons =>
    rw [hcons] at h
    obtain ⟨hmin, hmax⟩ := h.unique (Rescale.extremes_foldl first values)
    rw [hmin, hmax]
    rfl

/-- **What `normalizeWeights` does to a factor**: the collected values are rescaled, the others stay. -/
theorem factor?_normalizeWeights (s : State F R) {factor : Factor} (hfactor : factor ≠ .unknown)
    (hnodup : (s.factorWeights factor).Nodup) {min max : R}
    (h : Rescale.Extremes ((s.factorWeights factor).filterMap (WeightRef.get? s.callGraph factor))
      min max) (ref : WeightRef F) :
    (ref ∈ s.factorWeights factor → ref.factor? (normalizeWeights s) factor =
      (ref.factor? s.callGraph factor).map fun w =>
        w.setValue (Rescale.rescale min max w.getValue)) ∧
    (ref ∉ s.factorWeights factor →
      ref.factor? (normalizeWeights s) factor = ref.factor? s.callGraph factor) := by
  obtain ⟨graph, hbefore, hafter⟩ := exists_normalizeWeights s hfactor
  rw [← hbefore.get?_eq] at h
  rw [hafter, normalizeFactor_eq h, ← hbefore]
  exact ⟨factor?_changeValues_of_mem hnodup, fun hmem => factor?_changeValues_of_ne (.inr hmem)⟩

theorem factorKept_normalizeWeights_of_nil (s : State F R) {factor : Factor}
    (hfactor : factor ≠ .unknown)
    (hnil : (s.factorWeights factor).filterMap (WeightRef.get? s.callGraph factor) = []) :
    FactorKept factor s.callGraph (normalizeWeights s) := by
  obtain ⟨graph, hbefore, hafter⟩ := exists_normalizeWeights s hfactor
  have hsame : normalizeFactor (s.factorWeights factor) factor graph = graph := by
    unfold normalizeFactor
    rw [hbefore.get?_eq, hnil]
  rw [hsame] at hafter
  exact hbefore.trans hafter

/-- The same for the values that the pointers point to. -/
theorem get?_normalizeWeights (s : State F R) {factor : Factor} (hfactor : factor ≠ .unknown)
    (hnodup : (s.factorWeights factor).Nodup) (ref : WeightRef F) :
    (ref ∈ s.factorWeights factor → ref.get? (normalizeWeights s) factor =
      (ref.get? s.callGraph factor).map (Rescale.rescaleIn
        ((s.factorWeights factor).filterMap (WeightRef.get? s.callGraph factor)))) ∧
    (ref ∉ s.factorWeights factor →
      ref.get? (normalizeWeights s) factor = ref.get? s.callGraph factor) := by
  cases hvalues : (s.factorWeights factor).filterMap (WeightRef.get? s.callGraph factor) with
  | nil =>
    have hkept := factorKept_normalizeWeights_of_nil s hfactor hvalues ref
    rw [WeightRef.get?_eq, WeightRef.get?_eq, hkept]
    exact ⟨fun _ => Option.map_id'.symm, fun _ => rfl⟩
  | cons first values =>
    obtain ⟨min, max, hextremes⟩ := Rescale.exists_extremes (List.cons_ne_nil first values)
    obtain ⟨hmem, hother⟩ := factor?_normalizeWeights s hfactor hnodup (hvalues ▸ hextremes) ref
    rw [WeightRef.get?_eq, WeightRef.get?_eq]
    refine ⟨fun h => ?_, fun h => congrArg _ (hother h)⟩
    rw [hmem h, Option.map_map, Option.map_map]
    exact Option.map_congr fun w _ => (Rescale.rescaleIn_eq hextremes _).symm

end Normalize

/-! ## The loops that add factors -/

/-- The factor and the pointers collected for it are as before. -/
structure StateKept (factor : Factor) (s s' : State F R) : Prop where
  factor? : FactorKept factor s.callGraph s'.callGraph
  factorWeights : s'.factorWeights factor = s.factorWeights factor

section Add

variable {factor : Factor} {s s' s'' : State F R}

theorem StateKept.trans (h : StateKept factor s s') (h' : StateKept factor s' s'') :
    StateKept factor s s'' :=
  ⟨h.factor?.trans h'.factor?, h'.factorWeights.trans h.factorWeights⟩

omit [DecidableEq F] in
theorem factorWeights_collect_of_ne {kind : Factor} (hne : factor ≠ kind)
    (refs : List (WeightRef F)) (s : State F R) :
    (s.collect kind refs).factorWeights factor = s.factorWeights factor := by
  unfold State.collect
  dsimp only
  rw [if_neg hne]

theorem addNodeFactor_eq_some {f : F} {w : WeightFactor R} (h : addNodeFactor f w s = some s') :
    s.callGraph.hasFunctionNode f = true ∧ s' =
      { s with callGraph := s.callGraph.updateNode f fun node =>
        { node with getWeight := node.getWeight.addFactor w } }.collect w.getFactor [.node f] := by
  unfold addNodeFactor at h
  split at h
  · next hf => exact ⟨hf, (Option.some.inj h).symm⟩
  · cases h

theorem factor?_addNodeFactor_self {f : F} {w : WeightFactor R}
    (h : addNodeFactor f w s = some s') :
    (WeightRef.node f).factor? s'.callGraph w.getFactor = some w := by
  obtain ⟨hf, rfl⟩ := addNodeFactor_eq_some h
  obtain ⟨node, hnode⟩ := Option.isSome_iff_exists.1 hf
  simp [WeightRef.factor?, State.collect, getFunctionNode_updateNode, hnode, Weight.addFactor]

theorem factor?_addNodeFactor_of_ne {f : F} {w : WeightFactor R}
    (h : addNodeFactor f w s = some s') {ref : WeightRef F}
    (hne : factor ≠ w.getFactor ∨ ref ≠ .node f) :
    ref.factor? s'.callGraph factor = ref.factor? s.callGraph factor := by
  obtain ⟨-, rfl⟩ := addNodeFactor_eq_some h
  refine WeightRef.factor?_updateWeight_of_ne s.callGraph (fun weight => weight.addFactor w)
    (fun hfactor weight => ?_) hne
  simp [Weight.addFactor, hfactor]

theorem outEdgesKept_addNodeFactor {f : F} {w : WeightFactor R}
    (h : addNodeFactor f w s = some s') : OutEdgesKept s.callGraph s'.callGraph := by
  obtain ⟨-, rfl⟩ := addNodeFactor_eq_some h
  refine outEdgesKept_updateNode (fun node => ?_) (fun node => ?_) f
  · rfl
  · rfl

/-- A loop that adds a factor to nodes, seen from another factor. -/
theorem stateKept_addNodeFactors {kind : Factor} (hne : factor ≠ kind) (w : F → WeightFactor R)
    (hkind : ∀ f, (w f).getFactor = kind) {fs : List F}
    (h : fs.foldlM (fun s f => addNodeFactor f (w f) s) s = some s') :
    StateKept factor s s' := by
  induction fs generalizing s with
  | nil =>
    cases h
    exact ⟨fun ref => rfl, rfl⟩
  | cons f fs ih =>
    obtain ⟨s₁, hs₁, h⟩ := Option.bind_eq_some_iff.1 h
    have hne' : factor ≠ (w f).getFactor := hkind f ▸ hne
    have hfirst : StateKept factor s s₁ := by
      refine ⟨fun ref => factor?_addNodeFactor_of_ne hs₁ (.inl hne'), ?_⟩
      obtain ⟨-, rfl⟩ := addNodeFactor_eq_some hs₁
      exact factorWeights_collect_of_ne hne' _ _
    exact hfirst.trans (ih h)

theorem outEdgesKept_addNodeFactors {w : F → WeightFactor R} {fs : List F}
    (h : fs.foldlM (fun s f => addNodeFactor f (w f) s) s = some s') :
    OutEdgesKept s.callGraph s'.callGraph := by
  induction fs generalizing s with
  | nil =>
    cases h
    exact fun f => rfl
  | cons f fs ih =>
    obtain ⟨s₁, hs₁, h⟩ := Option.bind_eq_some_iff.1 h
    exact (outEdgesKept_addNodeFactor hs₁).trans (ih h)

/-- The same loop, seen from the factor itself. -/
theorem factor?_addNodeFactors (w : F → WeightFactor R) (hfactor : ∀ f, (w f).getFactor = factor)
    {fs : List F} (hnodup : fs.Nodup)
    (h : fs.foldlM (fun s f => addNodeFactor f (w f) s) s = some s') :
    s'.factorWeights factor = s.factorWeights factor ++ fs.map .node ∧
      (∀ f ∈ fs, (WeightRef.node f).factor? s'.callGraph factor = some (w f)) ∧
      ∀ f ∉ fs, (WeightRef.node f).factor? s'.callGraph factor =
        (WeightRef.node f).factor? s.callGraph factor := by
  induction fs generalizing s with
  | nil =>
    cases h
    exact ⟨(List.append_nil _).symm, List.forall_mem_nil _, fun f _ => rfl⟩
  | cons f fs ih =>
    obtain ⟨hf, hnodup⟩ := List.nodup_cons.1 hnodup
    obtain ⟨s₁, hs₁, h⟩ := Option.bind_eq_some_iff.1 h
    obtain ⟨hrefs, hmem, hother⟩ := ih hnodup h
    refine ⟨?_, List.forall_mem_cons.2 ⟨?_, hmem⟩, fun g hg => ?_⟩
    · obtain ⟨-, rfl⟩ := addNodeFactor_eq_some hs₁
      rw [hrefs, State.collect]
      dsimp only
      rw [if_pos (hfactor f).symm, List.append_assoc]
      rfl
    · rw [hother f hf, ← hfactor f]
      exact factor?_addNodeFactor_self hs₁
    · have hg' : g ≠ f ∧ g ∉ fs := by simpa using hg
      rw [hother g hg'.2]
      exact factor?_addNodeFactor_of_ne hs₁ (.inr fun hnode => hg'.1 (WeightRef.node.inj hnode))

/-- What a loop over in-edges does to a node. -/
def addFactorOf (factorOf : F → Option (F → WeightFactor R)) (node : Node F R) : Node F R :=
  match factorOf node.getFunction with
  | none => node
  | some w => addFactorToInEdges w node

theorem getFunctionNode_addInEdgeFactor (kind : Factor)
    (factorOf : F → Option (F → WeightFactor R)) (s : State F R) (f : F) :
    (addInEdgeFactor kind factorOf s).callGraph.getFunctionNode f =
      (s.callGraph.getFunctionNode f).map (addFactorOf factorOf) := by
  refine getFunctionNode_map (addFactorOf factorOf) (fun node => ?_) _ f
  unfold addFactorOf
  split <;> rfl

/-- A loop over in-edges, seen from another factor. -/
theorem stateKept_addInEdgeFactor {kind : Factor} (hne : factor ≠ kind)
    (factorOf : F → Option (F → WeightFactor R))
    (hkind : ∀ f w, factorOf f = some w → ∀ g, (w g).getFactor = kind) (s : State F R) :
    StateKept factor s (addInEdgeFactor kind factorOf s) := by
  refine ⟨fun ref => ?_, factorWeights_collect_of_ne hne _ _⟩
  cases ref with
  | node f =>
    simp only [WeightRef.factor?, getFunctionNode_addInEdgeFactor, Option.map_map]
    refine Option.map_congr fun node _ => ?_
    simp only [Function.comp_apply, addFactorOf]
    split <;> rfl
  | inEdge f i =>
    simp only [WeightRef.factor?, getFunctionNode_addInEdgeFactor]
    cases s.callGraph.getFunctionNode f with
    | none => rfl
    | some node =>
      simp only [Option.map_some, Option.bind_some, addFactorOf]
      split
      · rfl
      · next w hw =>
        have hfactor : ∀ g, factor ≠ (w g).getFactor := fun g => hkind _ w hw g ▸ hne
        simp [addFactorToInEdges, Edge.addFactor, Weight.addFactor, Function.comp_def, hfactor]

theorem outEdgesKept_addInEdgeFactor (kind : Factor) (factorOf : F → Option (F → WeightFactor R))
    (s : State F R) : OutEdgesKept s.callGraph (addInEdgeFactor kind factorOf s).callGraph := by
  intro f
  rw [getFunctionNode_addInEdgeFactor, Option.map_map]
  refine Option.map_congr fun node _ => ?_
  simp only [Function.comp_apply, addFactorOf]
  split <;> rfl

end Add

/-! ## The stages of an assignment -/

section Assign

variable [Zero R] [One R] [IntCast R]

/-- What the second loop of `assignCallNumWeights` does to a node. -/
def addCallNumToOutEdges (callSiteData : F → Option (F → Option Nat)) (node : Node F R) : Node F R :=
  { node with outEdges := node.outEdges.map fun edge =>
      match (callSiteData edge.getSink).bind fun calls => calls node.getFunction with
      | none => edge
      | some calls => edge.addFactor (callNumFactor calls) }

theorem getFunctionNode_addOutEdgeCallNum (callSiteData : F → Option (F → Option Nat))
    (graph : CallGraph F R) (f : F) : (addOutEdgeCallNum callSiteData graph).getFunctionNode f =
      (graph.getFunctionNode f).map (addCallNumToOutEdges callSiteData) :=
  getFunctionNode_map (addCallNumToOutEdges callSiteData) (fun _ => rfl) graph f

theorem factorKept_addOutEdgeCallNum (factor : Factor) (callSiteData : F → Option (F → Option Nat))
    (graph : CallGraph F R) : FactorKept factor graph (addOutEdgeCallNum callSiteData graph) := by
  intro ref
  cases ref with
  | node f =>
    simp only [WeightRef.factor?, getFunctionNode_addOutEdgeCallNum, Option.map_map]
    rfl
  | inEdge f i =>
    simp only [WeightRef.factor?, getFunctionNode_addOutEdgeCallNum, Option.bind_map]
    rfl

variable {pdg : PDG F G V N} {loopInfoGetter : LoopInfoGetter F V} {s s' : State F R}

theorem assignCallNumWeights_eq_some (h : assignCallNumWeights pdg loopInfoGetter s = some s') :
    callersKnown (collectFunctionCallSiteData pdg loopInfoGetter) s.callGraph = true ∧
      ∃ s₁, s₁ = addInEdgeFactor .callNum (fun f =>
          (collectFunctionCallSiteData pdg loopInfoGetter f).map fun calls caller =>
            callNumFactor ((calls caller).getD 0)) s ∧
        s' = { s₁ with callGraph :=
          addOutEdgeCallNum (collectFunctionCallSiteData pdg loopInfoGetter) s₁.callGraph } := by
  unfold assignCallNumWeights at h
  dsimp only at h
  split at h
  · next hknown => exact ⟨hknown, _, rfl, (Option.some.inj h).symm⟩
  · cases h

theorem stateKept_assignCallNumWeights {factor : Factor} (hne : factor ≠ .callNum)
    (h : assignCallNumWeights pdg loopInfoGetter s = some s') : StateKept factor s s' := by
  obtain ⟨-, s₁, hs₁, rfl⟩ := assignCallNumWeights_eq_some h
  have hfirst : StateKept factor s s₁ := by
    rw [hs₁]
    refine stateKept_addInEdgeFactor hne _ (fun f w hw g => ?_) s
    obtain ⟨calls, -, rfl⟩ := Option.map_eq_some_iff.1 hw
    rfl
  exact hfirst.trans ⟨factorKept_addOutEdgeCallNum factor _ _, rfl⟩

/-- The loops for arguments and return values, seen from a factor of neither. -/
theorem stateKept_assignArgAndRetValueWeights (M : Module F G V) {factor : Factor}
    (hargNum : factor ≠ .argNum) (hargComplexity : factor ≠ .argComplexity)
    (hretComplexity : factor ≠ .retComplexity) (s : State F R) :
    StateKept factor s (assignRetValueWeights M (assignArgWeights M s)) := by
  have hnum := stateKept_addInEdgeFactor hargNum (fun f => some fun _ =>
    (WeightFactor.new .argNum).setValue (((M.argTypes f).length : Int) : R))
    (fun f w hw g => by cases hw; rfl) s
  have hcomplexity := stateKept_addInEdgeFactor hargComplexity (fun f => some fun _ =>
    (WeightFactor.new .argComplexity).setValue (getArgComplexity M f : R))
    (fun f w hw g => by cases hw; rfl) (addInEdgeFactor .argNum (fun f => some fun _ =>
      (WeightFactor.new .argNum).setValue (((M.argTypes f).length : Int) : R)) s)
  have hret := stateKept_addInEdgeFactor hretComplexity (fun f => some fun _ =>
    (WeightFactor.new .retComplexity).setValue (getTypeComplexity (M.getReturnType f) : R))
    (fun f w hw g => by cases hw; rfl) (assignArgWeights M s)
  exact (hnum.trans hcomplexity).trans hret

theorem outEdgesKept_assignArgAndRetValueWeights (M : Module F G V) (s : State F R) :
    OutEdgesKept s.callGraph (assignRetValueWeights M (assignArgWeights M s)).callGraph :=
  ((outEdgesKept_addInEdgeFactor _ _ _).trans (outEdgesKept_addInEdgeFactor _ _ _)).trans
    (outEdgesKept_addInEdgeFactor _ _ _)

variable [Sub R] [Div R] [LT R] [DecidableLT R] [DecidableEq R] {M : Module F G V}
  {order : IterationOrder F} {secure : Partition F G} {graph graph' : CallGraph F R}

/-- The states between the stages. -/
theorem assignWeights_eq_some
    (h : assignWeights M pdg loopInfoGetter order secure graph = some graph') :
    ∃ s₁ s₂ s₃ s₄, assignSensitiveNodeWeights order secure { callGraph := graph } = some s₁ ∧
      assignSensitiveRelatedNodeWeights order secure s₁ = some s₂ ∧
      assignNodeSizeWeights M s₂ = some s₃ ∧
      assignCallNumWeights pdg loopInfoGetter s₃ = some s₄ ∧
      graph' = normalizeWeights (assignRetValueWeights M (assignArgWeights M s₄)) := by
  unfold assignWeights at h
  obtain ⟨s₁, h₁, h⟩ := Option.bind_eq_some_iff.1 h
  obtain ⟨s₂, h₂, h⟩ := Option.bind_eq_some_iff.1 h
  obtain ⟨s₃, h₃, h⟩ := Option.bind_eq_some_iff.1 h
  obtain ⟨s₄, h₄, h⟩ := Option.bind_eq_some_iff.1 h
  exact ⟨s₁, s₂, s₃, s₄, h₁, h₂, h₃, h₄, (Option.some.inj h).symm⟩

end Assign

end Pointers

end WeightAssigningHelper

end Vazgen
