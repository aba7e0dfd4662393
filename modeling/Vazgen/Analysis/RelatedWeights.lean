import Vazgen.Analysis.NormalizedWeights

/-!
# The weights of related functions

A function that is related to the sensitive ones on a level gets the value `1/level`, which is a
quotient of two `int`s: 1 on the first level and 0 on all further ones.

**`related_weight_lt_iff`**: of two related functions, the one on the lower level gets the greater
weight exactly if its level is the first.
-/

namespace Vazgen

namespace WeightAssigningHelper

variable {F G V N R : Type}

/-- `WeightFactor::getWeight`, with the product of `NumberType`. -/
def safeWeight [Ring R] [LinearOrder R] (w : WeightFactor R) : R :=
  @WeightFactor.getWeight R ⟨NumberType.safeMult⟩ w

/-- The SENSITIVE_RELATED weight of a function. -/
def relatedWeight [DecidableEq F] [Ring R] [LinearOrder R] (graph : CallGraph F R) (f : F) :
    Option R :=
  (graph.getFunctionNode f).map fun node => safeWeight (node.getWeight.getFactor .sensitiveRelated)

/-! ## One level -/

section Level

variable [Field R]

theorem relatedFactor_one : (relatedFactor 1 : WeightFactor R).getValue = 1 := by
  unfold relatedFactor
  rw [if_neg (by decide)]
  exact Int.cast_one

theorem relatedFactor_far {level : Int} (h : 2 ≤ level) :
    (relatedFactor level : WeightFactor R).getValue = 0 := by
  unfold relatedFactor
  rw [if_neg (by omega), Int.tdiv_eq_zero_of_lt (by decide) (by omega)]
  exact Int.cast_zero

theorem relatedFactor_mem {level : Int} (h : 1 ≤ level) :
    (relatedFactor level : WeightFactor R).getValue = 1 ∨
      (relatedFactor level : WeightFactor R).getValue = 0 := by
  rcases h.eq_or_lt with rfl | hlt
  · exact .inl relatedFactor_one
  · exact .inr (relatedFactor_far hlt)

variable [LinearOrder R] [IsStrictOrderedRing R]

/-- Only the first level stands out. -/
theorem relatedFactor_lt_iff {l₁ l₂ : Int} (hl : 1 ≤ l₁) (hlt : l₁ < l₂) :
    (relatedFactor l₂ : WeightFactor R).getValue < (relatedFactor l₁ : WeightFactor R).getValue ↔
      l₁ = 1 := by
  rw [relatedFactor_far (by omega)]
  constructor
  · intro hpos
    by_contra hne
    rw [relatedFactor_far (by omega)] at hpos
    exact lt_irrefl _ hpos
  · rintro rfl
    rw [relatedFactor_one]
    exact zero_lt_one

/-- The weight of a related function, when its value lies in the unit interval. -/
theorem safeWeight_setValue (level : Int) {value : R} (hvalue : value ∈ Set.Icc (0 : R) 1) :
    safeWeight ((relatedFactor level).setValue value) = value * 1000 := by
  have hcoef : ((relatedFactor level).setValue value : WeightFactor R).getCoef = 1000 := by
    show ((loopCost : Int) : R) = 1000
    unfold loopCost
    norm_num
  unfold safeWeight WeightFactor.getWeight
  rw [hcoef]
  refine NumberType.safeMult_of_le_one hvalue.1 hvalue.2 (by norm_num) ?_
  rw [NumberType.posInf_eq]
  norm_num

end Level

/-! ## All levels -/

section Related

variable [DecidableEq F] [Field R] [LinearOrder R] {M : Module F G V} {pdg : PDG F G V N}
  {loopInfoGetter : LoopInfoGetter F V} {order : IterationOrder F} {secure : Partition F G}
  {graph graph' : CallGraph F R}

/-- The state before the weights are normalised: the collected pointers are those to the related
functions, each of which has the factor of its level. -/
structure RelatedState (order : IterationOrder F) (secure : Partition F G) (s : State F R) : Prop where
  refs : s.factorWeights .sensitiveRelated = (order.list secure.relatedFunctions.keys).map .node
  factor? : ∀ f level, secure.relatedFunctions.lookup f = some level →
    (WeightRef.node f).factor? s.callGraph .sensitiveRelated = some (relatedFactor level)

theorem exists_relatedState
    (h : assignWeights M pdg loopInfoGetter order secure graph = some graph') :
    ∃ s : State F R, graph' = normalizeWeights s ∧ RelatedState order secure s := by
  obtain ⟨s₁, s₂, s₃, s₄, h₁, h₂, h₃, h₄, rfl⟩ := assignWeights_eq_some h
  have hsensitive : Factor.sensitiveRelated ≠ .sensitive := by decide
  have hsize : Factor.sensitiveRelated ≠ .size := by decide
  have hrefs₁ : s₁.factorWeights .sensitiveRelated = [] :=
    (stateKept_addNodeFactors hsensitive _ (fun f => rfl) h₁).factorWeights
  obtain ⟨hrefs₂, hvalues₂, -⟩ := factor?_addNodeFactors
    (fun f => relatedFactor ((secure.relatedFunctions.lookup f).getD 0))
    (fun f => show WeightFactor.getFactor _ = .sensitiveRelated from rfl)
    (order.nodup secure.relatedFunctions.keys) h₂
  rw [hrefs₁, List.nil_append] at hrefs₂
  have hkept : StateKept .sensitiveRelated s₂ (assignRetValueWeights M (assignArgWeights M s₄)) :=
    ((stateKept_addNodeFactors hsize _ (fun f => rfl) h₃).trans
      (stateKept_assignCallNumWeights (by decide) h₄)).trans
      (stateKept_assignArgAndRetValueWeights M (by decide) (by decide) (by decide) s₄)
  refine ⟨_, rfl, hkept.factorWeights.trans hrefs₂, fun f level hlevel => ?_⟩
  have hf : f ∈ order.list secure.relatedFunctions.keys :=
    (order.mem _ f).2 (Finmap.mem_keys.2 (Finmap.mem_of_lookup_eq_some hlevel))
  rw [hkept.factor?, hvalues₂ f hf, hlevel]
  rfl

omit [LinearOrder R] in
theorem RelatedState.mem_refs {s : State F R} (hs : RelatedState order secure s) {f : F} {level : Int}
    (hlevel : secure.relatedFunctions.lookup f = some level) :
    WeightRef.node f ∈ s.factorWeights .sensitiveRelated := by
  rw [hs.refs]
  exact List.mem_map_of_mem
    ((order.mem _ f).2 (Finmap.mem_keys.2 (Finmap.mem_of_lookup_eq_some hlevel)))

/-- What the related functions have after all stages: the factor of their level, rescaled from the
extremes of all such factors. -/
theorem exists_factor?_related
    (h : assignWeights M pdg loopInfoGetter order secure graph = some graph')
    (hne : ∃ f, f ∈ secure.relatedFunctions) :
    ∃ (values : List R) (min max : R), Rescale.Extremes values min max ∧
      ∀ f level, secure.relatedFunctions.lookup f = some level →
        (relatedFactor level : WeightFactor R).getValue ∈ values ∧
        (WeightRef.node f).factor? graph' .sensitiveRelated = some ((relatedFactor level).setValue
          (Rescale.rescale min max (relatedFactor level).getValue)) := by
  obtain ⟨s, rfl, hs⟩ := exists_relatedState h
  have hmem : ∀ f level, secure.relatedFunctions.lookup f = some level →
      (relatedFactor level : WeightFactor R).getValue ∈
        (s.factorWeights .sensitiveRelated).filterMap
          (WeightRef.get? s.callGraph .sensitiveRelated) := by
    intro f level hlevel
    refine List.mem_filterMap.2 ⟨_, hs.mem_refs hlevel, ?_⟩
    rw [WeightRef.get?_eq, hs.factor? f level hlevel]
    rfl
  obtain ⟨f, hf⟩ := hne
  obtain ⟨level, hlevel⟩ := Option.isSome_iff_exists.1 (Finmap.lookup_isSome.2 hf)
  obtain ⟨min, max, hextremes⟩ := Rescale.exists_extremes (List.ne_nil_of_mem (hmem f level hlevel))
  have hnodup : (s.factorWeights .sensitiveRelated).Nodup := by
    rw [hs.refs]
    exact (order.nodup _).map fun f g hfg => WeightRef.node.inj hfg
  refine ⟨_, min, max, hextremes, fun f level hlevel => ⟨hmem f level hlevel, ?_⟩⟩
  rw [(factor?_normalizeWeights s (by decide) hnodup hextremes _).1 (hs.mem_refs hlevel),
    hs.factor? f level hlevel]
  rfl

variable [IsStrictOrderedRing R]

/-- A related function on a level from 1 on has its rescaled value, 1000 times, as its weight. -/
theorem exists_relatedWeight {values : List R} {min max : R}
    (hextremes : Rescale.Extremes values min max) {f : F} {level : Int} (hlevel : 1 ≤ level)
    (hmem : (relatedFactor level : WeightFactor R).getValue ∈ values)
    (hfactor : (WeightRef.node f).factor? graph' .sensitiveRelated = some ((relatedFactor level).setValue
      (Rescale.rescale min max (relatedFactor level).getValue))) :
    relatedWeight graph' f =
      some (Rescale.rescale min max (relatedFactor level).getValue * 1000) := by
  have hrange : Rescale.rescale min max (relatedFactor level : WeightFactor R).getValue ∈
      Set.Icc (0 : R) 1 := by
    rcases hextremes.le.eq_or_lt with rfl | hlt
    · rw [Rescale.rescale_self (hextremes.mem_Icc _ hmem)]
      rcases relatedFactor_mem (R := R) hlevel with hvalue | hvalue
      · rw [hvalue]
        exact Set.right_mem_Icc.2 zero_le_one
      · rw [hvalue]
        exact Set.left_mem_Icc.2 zero_le_one
    · exact Rescale.rescale_mem_Icc hlt (hextremes.mem_Icc _ hmem)
  obtain ⟨node, hnode, hw⟩ := Option.map_eq_some_iff.1 hfactor
  unfold relatedWeight
  rw [hnode, Option.map_some, hw, safeWeight_setValue level hrange]

/-! ## Top theorem -/

/-- **When a closer related function weighs more.**  It does only on the first level. -/
theorem related_weight_lt_iff
    (h : assignWeights M pdg loopInfoGetter order secure graph = some graph') {f₁ f₂ : F}
    {l₁ l₂ : Int} (h₁ : secure.relatedFunctions.lookup f₁ = some l₁)
    (h₂ : secure.relatedFunctions.lookup f₂ = some l₂) (hl : 1 ≤ l₁) (hlt : l₁ < l₂) :
    ∃ w₁ w₂, relatedWeight graph' f₁ = some w₁ ∧ relatedWeight graph' f₂ = some w₂ ∧
      (w₂ < w₁ ↔ l₁ = 1) := by
  obtain ⟨values, min, max, hextremes, hvalues⟩ := exists_factor?_related h
    ⟨f₁, Finmap.mem_of_lookup_eq_some h₁⟩
  obtain ⟨hmem₁, hfactor₁⟩ := hvalues f₁ l₁ h₁
  obtain ⟨hmem₂, hfactor₂⟩ := hvalues f₂ l₂ h₂
  refine ⟨_, _, exists_relatedWeight hextremes hl hmem₁ hfactor₁,
    exists_relatedWeight hextremes (by omega) hmem₂ hfactor₂, ?_⟩
  rw [mul_lt_mul_iff_left₀ (by norm_num),
    Rescale.rescale_lt_rescale_iff (hextremes.mem_Icc _ hmem₂) (hextremes.mem_Icc _ hmem₁),
    relatedFactor_lt_iff hl hlt]

end Related

/-- `false` is related on one level and `true` on another. -/
def relatedOn (level level' : Int) : Partition Bool Empty where
  relatedFunctions := ((∅ : Finmap fun _ : Bool => Int).insert false level).insert true level'

theorem relatedOn_one_two :
    ∃ graph', assignWeights oneCallModule oneCallPDG (fun _ => none) boolOrder (relatedOn 1 2)
        (CallGraph.create oneCall : CallGraph Bool ℚ) = some graph' ∧
      ∃ w₁ w₂, relatedWeight graph' false = some w₁ ∧ relatedWeight graph' true = some w₂ ∧
        w₂ < w₁ := by
  have hsome : (assignWeights oneCallModule oneCallPDG (fun _ => none) boolOrder (relatedOn 1 2)
      (CallGraph.create oneCall : CallGraph Bool ℚ)).isSome = true := by decide
  obtain ⟨graph', h⟩ := Option.isSome_iff_exists.1 hsome
  have hfalse : (relatedOn 1 2).relatedFunctions.lookup false = some 1 := by decide
  have htrue : (relatedOn 1 2).relatedFunctions.lookup true = some 2 := by decide
  obtain ⟨w₁, w₂, hw₁, hw₂, hiff⟩ := related_weight_lt_iff h hfalse htrue (by decide) (by decide)
  exact ⟨graph', h, w₁, w₂, hw₁, hw₂, hiff.2 rfl⟩

theorem relatedOn_two_three :
    (relatedOn 2 3).relatedFunctions.lookup false = some 2 ∧
      (relatedOn 2 3).relatedFunctions.lookup true = some 3 ∧
      ∃ graph', assignWeights oneCallModule oneCallPDG (fun _ => none) boolOrder (relatedOn 2 3)
          (CallGraph.create oneCall : CallGraph Bool ℚ) = some graph' ∧
        relatedWeight graph' false = some 0 ∧ relatedWeight graph' true = some 0 := by
  have hweights : (assignWeights oneCallModule oneCallPDG (fun _ => none) boolOrder (relatedOn 2 3)
      (CallGraph.create oneCall : CallGraph Bool ℚ)).map (fun graph' =>
        (relatedWeight graph' false, relatedWeight graph' true)) = some (some 0, some 0) := by
    decide +kernel
  obtain ⟨graph', h, hw⟩ := Option.map_eq_some_iff.1 hweights
  exact ⟨by decide, by decide, graph', h, congrArg Prod.fst hw, congrArg Prod.snd hw⟩

end WeightAssigningHelper

end Vazgen
