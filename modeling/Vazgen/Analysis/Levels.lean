import Vazgen.Analysis.Sensitivity
import Vazgen.Lib.Distance

/-!
# What the visit of a node does to the levels and the related functions

The visit of a node is a sequence of effects on what the walk has found so far (`visitNode_effects`):
the node's parent passes its level on, and functions are recorded at their level.  A level that is
passed on lowers one entry (`updateFunctionLevel_cases`), never the parent's own.
-/

namespace Vazgen

open Worklist MinMap Relation

variable {F G V N : Type} [DecidableEq F]

/-! ## Passing a level on -/

theorem updateFunctionLevel_of_lookup {p q : F} {l : Int} {levels : Finmap fun _ : F => Int}
    (hp : levels.lookup p = some l) (hq : q ≠ p) :
    updateFunctionLevel (some p) (some q) levels = insertMin q (l + 1) levels := by
  simp only [updateFunctionLevel, hp, if_neg hq]

/-- Passing a level on changes nothing or lowers one entry to the parent's level plus one. -/
theorem updateFunctionLevel_cases (currentF newF : Option F) (levels : Finmap fun _ : F => Int) :
    updateFunctionLevel currentF newF levels = levels ∨
      ∃ p q l, currentF = some p ∧ newF = some q ∧ q ≠ p ∧ levels.lookup p = some l ∧
        updateFunctionLevel currentF newF levels = insertMin q (l + 1) levels := by
  cases newF with
  | none => exact .inl rfl
  | some q =>
    cases currentF with
    | none => exact .inl rfl
    | some p =>
      cases hp : levels.lookup p with
      | none =>
        refine .inl ?_
        simp only [updateFunctionLevel, hp]
      | some l =>
        by_cases hq : q = p
        · subst hq
          refine .inl (Finmap.ext_lookup fun f => ?_)
          simp only [updateFunctionLevel, hp, if_true]
          by_cases hf : f = q
          · subst hf
            rw [lookup_insertMin_self, hp]
            simp
          · rw [lookup_insertMin_of_ne hf]
        · exact .inr ⟨p, q, l, rfl, rfl, hq, hp, updateFunctionLevel_of_lookup hp hq⟩

theorem below_updateFunctionLevel (currentF newF : Option F) (levels : Finmap fun _ : F => Int) :
    Below levels (updateFunctionLevel currentF newF levels) := by
  rcases updateFunctionLevel_cases currentF newF levels with h | ⟨p, q, l, -, -, -, -, h⟩
  · rw [h]
    exact Below.refl levels
  · rw [h]
    exact (insertMin_below_iff.1 (Below.refl _)).1

theorem lookup_updateFunctionLevel_parent (p : F) (newF : Option F)
    (levels : Finmap fun _ : F => Int) :
    (updateFunctionLevel (some p) newF levels).lookup p = levels.lookup p := by
  rcases updateFunctionLevel_cases (some p) newF levels with h | ⟨p', q, l, hp, -, hq, -, h⟩
  · rw [h]
  · cases hp
    rw [h, lookup_insertMin_of_ne hq.symm]

/-- After passing its level on to `q`, the parent's level is at most one less than the level of
`q`. -/
theorem exists_level_updateFunctionLevel {p q : F} {l : Int} {levels : Finmap fun _ : F => Int}
    (hp : levels.lookup p = some l) :
    ∃ c ≤ l + 1, (updateFunctionLevel (some p) (some q) levels).lookup q = some c := by
  by_cases hq : q = p
  · subst hq
    exact ⟨l, by omega, (lookup_updateFunctionLevel_parent q (some q) levels).trans hp⟩
  · rw [updateFunctionLevel_of_lookup hp hq]
    exact (insertMin_below_iff.1 (Below.refl _)).2

/-! ## Findings -/

/-- What a walk has found: the part of its state that does not control it. -/
structure Findings (F : Type) where
  functionLevels : Finmap fun _ : F => Int
  relatedFunctions : Finmap fun _ : F => Int
  assertFailed : Bool

def TraverseState.findings (s : TraverseState F G V N) : Findings F where
  functionLevels := s.functionLevels
  relatedFunctions := s.partition.relatedFunctions
  assertFailed := s.assertFailed

def Findings.pass (currentF newF : Option F) (x : Findings F) : Findings F :=
  { x with functionLevels := updateFunctionLevel currentF newF x.functionLevels }

def Findings.record (f : F) (x : Findings F) : Findings F :=
  match x.functionLevels.lookup f with
  | none => { x with assertFailed := true }
  | some level => { x with relatedFunctions := insertNew f level x.relatedFunctions }

@[simp] theorem Findings.pass_functionLevels (currentF newF : Option F) (x : Findings F) :
    (x.pass currentF newF).functionLevels =
      updateFunctionLevel currentF newF x.functionLevels := rfl

@[simp] theorem Findings.record_functionLevels (f : F) (x : Findings F) :
    (x.record f).functionLevels = x.functionLevels := by
  unfold record; split <;> rfl

/-- A function is recorded at its level, unless it is recorded already. -/
theorem Findings.lookup_record {f g : F} {l : Int} {x : Findings F}
    (h : (x.record f).relatedFunctions.lookup g = some l) :
    x.relatedFunctions.lookup g = some l ∨ (g = f ∧ x.functionLevels.lookup g = some l) := by
  unfold record insertNew at h
  split at h
  · exact .inl h
  · next level hlevel =>
    dsimp only at h
    split at h
    · exact .inl h
    · by_cases hg : g = f
      · subst hg
        rw [Finmap.lookup_insert] at h
        cases h
        exact .inr ⟨rfl, hlevel⟩
      · rw [Finmap.lookup_insert_of_ne _ hg] at h
        exact .inl h

/-- What has been recorded stays. -/
theorem Findings.lookup_record_of_lookup {f g : F} {l : Int} {x : Findings F}
    (h : x.relatedFunctions.lookup g = some l) : (x.record f).relatedFunctions.lookup g = some l := by
  unfold record insertNew
  split
  · exact h
  · dsimp only
    split
    · exact h
    · next hf =>
      have hg : g ≠ f := by
        rintro rfl
        exact hf (Finmap.mem_of_lookup_eq_some h)
      rw [Finmap.lookup_insert_of_ne _ hg]
      exact h

theorem Findings.assertFailed_of_record {f : F} {x : Findings F}
    (h : (x.record f).assertFailed = false) : x.assertFailed = false := by
  unfold record at h
  split at h
  · cases h
  · exact h

theorem Findings.mem_record {f : F} {x : Findings F} (h : (x.record f).assertFailed = false) :
    f ∈ (x.record f).relatedFunctions := by
  unfold record at h ⊢
  split at h
  · cases h
  · next level hlevel => exact mem_insertNew.2 (.inl rfl)

theorem findings_addRelatedFunction (f : F) (s : TraverseState F G V N) :
    (addRelatedFunction f s).findings = s.findings.record f := by
  unfold addRelatedFunction Findings.record TraverseState.findings
  dsimp only
  cases s.functionLevels.lookup f <;> rfl

/-! ## Effects of a visit -/

omit [DecidableEq F] in
/-- A defined function other than the annotated one. -/
def Relatable (M : Module F G V) (annotated f : F) : Prop :=
  M.isDeclaration f = false ∧ f ≠ annotated

/-- One effect of the visit of `n` on the findings, when the loop queues `queued n` and records
the functions of the formal argument nodes `collects n`. -/
inductive Effect (M : Module F G V) (pdg : PDG F G V N) (queued collects : N → List N)
    (annotated : F) (n : N) : Findings F → Findings F → Prop
  | pass {x : Findings F} {m : N} : pdg.functionOf n = none → m ∈ queued n →
      Effect M pdg queued collects annotated n x (x.pass (pdg.getParent n) (pdg.getParent m))
  | formalArgument {x : Findings F} {m : N} {f : F} : pdg.functionOf n = none →
      m ∈ collects n → pdg.kind m = .formalArgument f → M.isDeclaration f = false →
      Effect M pdg queued collects annotated n x ((x.pass (pdg.getParent n) (some f)).record f)
  | function {x : Findings F} {f : F} : pdg.functionOf n = some f → Relatable M annotated f →
      Effect M pdg queued collects annotated n x (x.record f)

/-- The visit of `n` records `f`. -/
def Records (M : Module F G V) (pdg : PDG F G V N) (collects : N → List N) (annotated : F) (n : N)
    (f : F) : Prop :=
  (pdg.functionOf n = some f ∧ Relatable M annotated f) ∨
    (pdg.functionOf n = none ∧ ∃ m ∈ collects n, pdg.kind m = .formalArgument f ∧
      M.isDeclaration f = false)

section Effect

variable {M : Module F G V} {pdg : PDG F G V N} {queued collects : N → List N} {annotated : F}
  {n : N} {x y : Findings F}

theorem Effect.lookup_related (h : Effect M pdg queued collects annotated n x y) {f : F} {l : Int}
    (hf : x.relatedFunctions.lookup f = some l) : y.relatedFunctions.lookup f = some l := by
  cases h with
  | pass _ _ => exact hf
  | formalArgument _ _ _ _ => exact Findings.lookup_record_of_lookup hf
  | function _ _ => exact Findings.lookup_record_of_lookup hf

theorem Effect.assertFailed (h : Effect M pdg queued collects annotated n x y)
    (hy : y.assertFailed = false) : x.assertFailed = false := by
  cases h with
  | pass _ _ => exact hy
  | formalArgument _ _ _ _ =>
    exact Findings.assertFailed_of_record (x := x.pass (pdg.getParent n) _) hy
  | function _ _ => exact Findings.assertFailed_of_record hy

theorem lookup_related_of_effects
    (h : ReflTransGen (Effect M pdg queued collects annotated n) x y) {f : F} {l : Int}
    (hf : x.relatedFunctions.lookup f = some l) : y.relatedFunctions.lookup f = some l := by
  induction h with
  | refl => exact hf
  | tail _ hstep ih => exact hstep.lookup_related ih

theorem assertFailed_of_effects
    (h : ReflTransGen (Effect M pdg queued collects annotated n) x y)
    (hy : y.assertFailed = false) : x.assertFailed = false := by
  induction h with
  | refl => exact hy
  | tail _ hstep ih => exact ih (hstep.assertFailed hy)

/-- The visit of a node relates no functions but those it records. -/
theorem records_of_effects (h : ReflTransGen (Effect M pdg queued collects annotated n) x y) {f : F}
    (hf : f ∈ y.relatedFunctions) : f ∈ x.relatedFunctions ∨ Records M pdg collects annotated n f := by
  induction h with
  | refl => exact .inl hf
  | tail _ hstep ih =>
    obtain ⟨l, hl⟩ := Finmap.mem_iff.1 hf
    cases hstep with
    | pass _ _ => exact ih hf
    | formalArgument hn hm hk hd =>
      rcases Findings.lookup_record hl with hl | ⟨rfl, -⟩
      · exact ih (Finmap.mem_of_lookup_eq_some hl)
      · exact .inr (.inr ⟨hn, _, hm, hk, hd⟩)
    | function hn hr =>
      rcases Findings.lookup_record hl with hl | ⟨rfl, -⟩
      · exact ih (Finmap.mem_of_lookup_eq_some hl)
      · exact .inr (.inl ⟨hn, hr⟩)

/-- The visit of a node leaves its parent's level as it is. -/
theorem lookup_parent_of_effects
    (h : ReflTransGen (Effect M pdg queued collects annotated n) x y) {p : F}
    (hp : pdg.getParent n = some p) : y.functionLevels.lookup p = x.functionLevels.lookup p := by
  induction h with
  | refl => rfl
  | tail _ hstep ih =>
    rw [← ih]
    cases hstep with
    | pass _ _ =>
      rw [hp]
      exact lookup_updateFunctionLevel_parent p _ _
    | formalArgument _ _ _ _ =>
      rw [hp, Findings.record_functionLevels]
      exact lookup_updateFunctionLevel_parent p _ _
    | function _ _ => rw [Findings.record_functionLevels]

theorem below_of_effects (h : ReflTransGen (Effect M pdg queued collects annotated n) x y) :
    Below x.functionLevels y.functionLevels := by
  induction h with
  | refl => exact .refl _
  | tail _ hstep ih =>
    refine ih.trans ?_
    cases hstep with
    | pass _ _ => exact below_updateFunctionLevel _ _ _
    | formalArgument _ _ _ _ =>
      rw [Findings.record_functionLevels]
      exact below_updateFunctionLevel _ _ _
    | function _ _ =>
      rw [Findings.record_functionLevels]
      exact .refl _

end Effect

/-- The formal argument nodes whose functions `traverseForward` records at a node. -/
def forwardCollects (pdg : PDG F G V N) (n : N) : List N :=
  if isActualArgument pdg n then formalArgTargets pdg n else []

/-- The backward walks record nothing but functions of function nodes. -/
def backwardCollects (_ : N) : List N := []

/-- What a loop has to say about its expansion of a node: its effects, the level that the parent
passes on to everything queued, and the functions that are recorded. -/
structure TraverseLoop.Effects (M : Module F G V) (pdg : PDG F G V N) (loop : TraverseLoop F G V N)
    (queued collects : N → List N) (annotated : F) : Prop where
  collects_subset : ∀ n, ∀ m ∈ collects n, m ∈ queued n
  effects : ∀ n s, pdg.functionOf n = none →
    ReflTransGen (Effect M pdg queued collects annotated n) s.findings (loop.expand n s).findings
  level : ∀ n s p l m q, pdg.getParent n = some p → s.functionLevels.lookup p = some l →
    m ∈ queued n → pdg.getParent m = some q →
    ∃ c ≤ l + 1, (loop.expand n s).functionLevels.lookup q = some c
  recorded : ∀ n s m f, m ∈ collects n → pdg.kind m = .formalArgument f →
    M.isDeclaration f = false → (loop.expand n s).assertFailed = false →
    f ∈ (loop.expand n s).partition.relatedFunctions

section Loops

variable (M : Module F G V) (pdg : PDG F G V N)

theorem effects_queueNeighbours {collects : N → List N} {annotated : F} {n : N}
    {queued : N → List N} (hn : pdg.functionOf n = none) (ns : List N)
    (hns : ∀ m ∈ ns, canProcessNode pdg m = true → m ∈ queued n) (s : TraverseState F G V N) :
    ReflTransGen (Effect M pdg queued collects annotated n) s.findings
      (queueNeighbours pdg (pdg.getParent n) ns s).findings := by
  unfold queueNeighbours
  induction ns generalizing s with
  | nil => exact .refl
  | cons m ns ih =>
    rw [List.foldl_cons]
    refine ReflTransGen.trans ?_ (ih (fun a ha => hns a (List.mem_cons_of_mem m ha)) _)
    split
    · next hc => exact .single (.pass hn (hns m List.mem_cons_self hc))
    · exact .refl

theorem below_queueNeighbours (parent : Option F) (ns : List N) (s : TraverseState F G V N) :
    Below s.functionLevels (queueNeighbours pdg parent ns s).functionLevels := by
  unfold queueNeighbours
  induction ns generalizing s with
  | nil => exact .refl _
  | cons m ns ih =>
    rw [List.foldl_cons]
    refine Below.trans ?_ (ih _)
    split
    · exact below_updateFunctionLevel _ _ _
    · exact .refl _

theorem lookup_queueNeighbours_parent (p : F) (ns : List N) (s : TraverseState F G V N) :
    (queueNeighbours pdg (some p) ns s).functionLevels.lookup p = s.functionLevels.lookup p := by
  unfold queueNeighbours
  induction ns generalizing s with
  | nil => rfl
  | cons m ns ih =>
    rw [List.foldl_cons, ih]
    split
    · exact lookup_updateFunctionLevel_parent p _ _
    · rfl

/-- The parent's level bounds the level of the function of every node that is queued. -/
theorem exists_level_queueNeighbours {p : F} {l : Int} {ns : List N} {m : N} (hm : m ∈ ns)
    (hc : canProcessNode pdg m = true) {q : F} (hq : pdg.getParent m = some q)
    {s : TraverseState F G V N} (hp : s.functionLevels.lookup p = some l) :
    ∃ c ≤ l + 1, (queueNeighbours pdg (some p) ns s).functionLevels.lookup q = some c := by
  induction ns generalizing s with
  | nil => cases hm
  | cons a ns ih =>
    rw [queueNeighbours_cons]
    rcases List.mem_cons.1 hm with rfl | hm
    · obtain ⟨c, hcl, hlevel⟩ := exists_level_updateFunctionLevel (q := q) hp
      have hstep : (queueNeighbours pdg (some p) [m] s).functionLevels.lookup q = some c := by
        simp only [queueNeighbours, List.foldl_cons, List.foldl_nil, hc, if_true, hq]
        exact hlevel
      obtain ⟨c', hc', hlevel'⟩ := below_queueNeighbours pdg (some p) ns _ q c hstep
      exact ⟨c', hc'.trans hcl, hlevel'⟩
    · exact ih hm ((lookup_queueNeighbours_parent pdg p [a] s).trans hp)

/-- The effect of the loop body of `collectNodesForActualArg`. -/
theorem findings_collectFormalArg (parent : Option F) (s : TraverseState F G V N) (m : N) :
    (collectFormalArg M pdg parent s m).findings = s.findings ∨
      ∃ f, pdg.kind m = .formalArgument f ∧ pdg.hasFunctionPDG f = true ∧
        M.isDeclaration f = false ∧
        (collectFormalArg M pdg parent s m).findings = (s.findings.pass parent (some f)).record f := by
  unfold collectFormalArg
  split
  · next f hk =>
    split
    · next hpdg =>
      dsimp only
      split
      · exact .inl rfl
      · next hd =>
        rw [Bool.not_eq_true] at hd
        exact .inr ⟨f, hk, hpdg, hd, findings_addRelatedFunction f _⟩
    · exact .inl rfl
  · exact .inl rfl

/-- What `collectNodesForActualArg` does at an actual argument node. -/
theorem effects_collectNodesForActualArg (annotated : F) {n : N} (hn : pdg.functionOf n = none)
    (ha : isActualArgument pdg n = true) (s : TraverseState F G V N) :
    ReflTransGen (Effect M pdg (forwardQueued pdg) (forwardCollects pdg) annotated n) s.findings
      (collectNodesForActualArg M pdg n s).findings := by
  rw [collectNodesForActualArg_eq]
  split
  · next hptr =>
    have hmem : ∀ m ∈ outNeighbours pdg n, ∀ f, pdg.kind m = .formalArgument f →
        pdg.hasFunctionPDG f = true → m ∈ forwardCollects pdg n := by
      intro m hm f hk hf
      rw [forwardCollects, if_pos ha, formalArgTargets, if_pos hptr]
      exact List.mem_filter.2 ⟨hm, by simp only [hk, hf]⟩
    generalize outNeighbours pdg n = ms at hmem
    induction ms generalizing s with
    | nil => exact .refl
    | cons m ms ih =>
      rw [List.foldl_cons]
      refine ReflTransGen.trans ?_ (ih _ fun a ha => hmem a (List.mem_cons_of_mem m ha))
      rcases findings_collectFormalArg M pdg (pdg.getParent n) s m with h | ⟨f, hk, hf, hd, h⟩
      · rw [h]
      · rw [h]
        exact .single (.formalArgument hn (hmem m List.mem_cons_self f hk hf) hk hd)
  · exact .refl

/-- The functions of the formal argument nodes are recorded, unless the assertion fails. -/
theorem recorded_collectNodesForActualArg {n m : N} {f : F} (hm : m ∈ formalArgTargets pdg n)
    (hk : pdg.kind m = .formalArgument f) (hd : M.isDeclaration f = false)
    {s : TraverseState F G V N}
    (h : (collectNodesForActualArg M pdg n s).assertFailed = false) :
    f ∈ (collectNodesForActualArg M pdg n s).partition.relatedFunctions := by
  rw [collectNodesForActualArg_eq] at h ⊢
  unfold formalArgTargets at hm
  split at hm
  · next hptr =>
    rw [if_pos hptr] at h ⊢
    obtain ⟨hm, hf⟩ := List.mem_filter.1 hm
    rw [hk] at hf
    -- the fold keeps what is recorded, and a failed assertion
    have hkeep : ∀ (ms : List N) (s : TraverseState F G V N),
        (ms.foldl (collectFormalArg M pdg (pdg.getParent n)) s).assertFailed = false →
        s.assertFailed = false ∧ (f ∈ s.partition.relatedFunctions →
          f ∈ (ms.foldl (collectFormalArg M pdg (pdg.getParent n)) s).partition.relatedFunctions) := by
      intro ms
      induction ms with
      | nil => exact fun s h => ⟨h, id⟩
      | cons a ms ih =>
        intro s h
        obtain ⟨hs, hrel⟩ := ih _ h
        refine ⟨?_, fun hf => hrel ((grows_collectFormalArg M pdg s _ a).related f hf)⟩
        rcases findings_collectFormalArg M pdg (pdg.getParent n) s a with e | ⟨g, -, -, -, e⟩
        · exact (congrArg Findings.assertFailed e).symm.trans hs
        · exact Findings.assertFailed_of_record (x := s.findings.pass (pdg.getParent n) (some g))
            ((congrArg Findings.assertFailed e).symm.trans hs)
    generalize outNeighbours pdg n = ms at hm h
    induction ms generalizing s with
    | nil => cases hm
    | cons a ms ih =>
      rw [List.foldl_cons] at h ⊢
      rcases List.mem_cons.1 hm with rfl | hm
      · obtain ⟨hs, hrel⟩ := hkeep ms _ h
        refine hrel ?_
        have e : (collectFormalArg M pdg (pdg.getParent n) s m).findings =
            (s.findings.pass (pdg.getParent n) (some f)).record f := by
          simp only [collectFormalArg, hk, hf, hd, if_true]
          exact findings_addRelatedFunction f _
        have hrec := Findings.mem_record (f := f) (x := s.findings.pass (pdg.getParent n) (some f))
          ((congrArg Findings.assertFailed e).symm.trans hs)
        rwa [← e] at hrec
      · exact ih hm h
  · cases hm

omit [DecidableEq F] in
theorem findings_collectStoreOperand (annotated : F) (n : N) (s : TraverseState F G V N) :
    (collectStoreOperand M pdg annotated n s).findings = s.findings := by
  unfold collectStoreOperand
  split <;> rfl

omit [DecidableEq F] in
theorem mem_forwardQueued {n m : N} (hm : m ∈ outNeighbours pdg n)
    (hc : canProcessNode pdg m = true) : m ∈ forwardQueued pdg n :=
  List.mem_append_right _ (List.mem_filter.2 ⟨hm, hc⟩)

omit [DecidableEq F] in
theorem mem_backwardQueued {n m : N} (hm : m ∈ inNeighbours pdg n)
    (hc : canProcessNode pdg m = true) : m ∈ backwardQueued pdg n :=
  List.mem_filter.2 ⟨hm, hc⟩

theorem effects_forwardLoop (annotated : F) :
    (forwardLoop M pdg annotated).Effects M pdg (forwardQueued pdg) (forwardCollects pdg)
      annotated where
  collects_subset n m hm := List.mem_append_left _ hm
  effects n s hn := by
    simp only [forwardLoop]
    refine ReflTransGen.trans ?_ (effects_queueNeighbours M pdg hn _
      (fun m => mem_forwardQueued pdg) _)
    rw [findings_collectStoreOperand]
    split
    · next ha => exact effects_collectNodesForActualArg M pdg annotated hn ha s
    · exact .refl
  level n s p l m q hp hl hm hq := by
    obtain ⟨hm, hc⟩ := (queuesNeighbours_forward pdg n m).1 hm
    simp only [forwardLoop, hp]
    refine exists_level_queueNeighbours pdg hm hc hq ?_
    rw [show (collectStoreOperand M pdg annotated n _).functionLevels = _ from
      congrArg Findings.functionLevels (findings_collectStoreOperand M pdg annotated n _)]
    split
    · next ha =>
      have hn : pdg.functionOf n = none := by
        unfold isActualArgument at ha
        unfold PDG.functionOf
        split at ha
        · next hk => rw [hk]
        · cases ha
      exact (lookup_parent_of_effects
        (effects_collectNodesForActualArg M pdg annotated hn ha s) hp).trans hl
    · exact hl
  recorded n s m f hm hk hd h := by
    simp only [forwardLoop, assertFailed_queueNeighbours, assertFailed_collectStoreOperand,
      partition_queueNeighbours] at h ⊢
    unfold forwardCollects at hm
    split at hm
    · next ha =>
      rw [if_pos ha] at h ⊢
      have hrec := recorded_collectNodesForActualArg M pdg hm hk hd h
      exact (grows_collectStoreOperand M pdg _ annotated n).related f hrec
    · cases hm

/-- The two backward walks expand a node alike. -/
theorem effects_backward {loop : TraverseLoop F G V N} (annotated : F)
    (hexpand : ∀ n s, loop.expand n s =
      queueNeighbours pdg (pdg.getParent n) (inNeighbours pdg n) s) :
    loop.Effects M pdg (backwardQueued pdg) backwardCollects annotated where
  collects_subset n m hm := (List.not_mem_nil hm).elim
  effects n s hn := by
    rw [hexpand]
    exact effects_queueNeighbours M pdg hn _ (fun m => mem_backwardQueued pdg) s
  level n s p l m q hp hl hm hq := by
    obtain ⟨hm, hc⟩ := (queuesNeighbours_backward pdg n m).1 hm
    rw [hexpand, hp]
    exact exists_level_queueNeighbours pdg hm hc hq hl
  recorded n s m f hm := (List.not_mem_nil hm).elim

theorem effects_backwardLoop (annotated : F) :
    (backwardLoop (F := F) (G := G) pdg).Effects M pdg (backwardQueued pdg) backwardCollects
      annotated :=
  effects_backward M pdg annotated fun _ _ => rfl

theorem effects_returnLoop (annotated : F) :
    (returnLoop (F := F) (G := G) pdg).Effects M pdg (backwardQueued pdg) backwardCollects
      annotated :=
  effects_backward M pdg annotated fun _ _ => rfl

end Loops

/-! ## The visit of a node -/

section Visit

variable {M : Module F G V} {pdg : PDG F G V N} {loop : TraverseLoop F G V N}
  {queued collects : N → List N} {annotated : F}

/-- **What the visit of a node does is a sequence of effects.** -/
theorem visitNode_effects (h : loop.Effects M pdg queued collects annotated) (n : N)
    (s : TraverseState F G V N) :
    ReflTransGen (Effect M pdg queued collects annotated n) s.findings
      (visitNode M pdg loop annotated n s).findings := by
  unfold visitNode
  cases hn : pdg.functionOf n with
  | none => exact h.effects n s hn
  | some f =>
    dsimp only
    unfold visitFunction
    split
    · exact .refl
    · next hd =>
      rw [Bool.not_eq_true] at hd
      split
      · exact .refl
      · next hne =>
        rw [findings_addRelatedFunction]
        exact .single (.function hn ⟨hd, hne⟩)

/-- After the visit the parent's level bounds the levels of the functions it is passed on to. -/
theorem visitNode_level (h : loop.Effects M pdg queued collects annotated) {n m : N}
    {s : TraverseState F G V N} {p q : F} {l : Int} (hn : pdg.functionOf n = none)
    (hp : pdg.getParent n = some p) (hl : s.functionLevels.lookup p = some l) (hm : m ∈ queued n)
    (hq : pdg.getParent m = some q) :
    ∃ c ≤ l + 1, (visitNode M pdg loop annotated n s).functionLevels.lookup q = some c := by
  unfold visitNode
  rw [hn]
  exact h.level n s p l m q hp hl hm hq

/-- The visit of a node relates the functions it records, unless the assertion fails. -/
theorem visitNode_recorded (h : loop.Effects M pdg queued collects annotated) {n : N} {f : F}
    {s : TraverseState F G V N} (hf : Records M pdg collects annotated n f)
    (ha : (visitNode M pdg loop annotated n s).assertFailed = false) :
    f ∈ (visitNode M pdg loop annotated n s).partition.relatedFunctions := by
  unfold visitNode at ha ⊢
  rcases hf with ⟨hn, hd, hne⟩ | ⟨hn, m, hm, hk, hd⟩
  · rw [hn] at ha ⊢
    dsimp only at ha ⊢
    unfold visitFunction at ha ⊢
    rw [if_neg (by simp [hd]), if_neg hne] at ha ⊢
    have e := findings_addRelatedFunction f s
    have hrec := Findings.mem_record (f := f) (x := s.findings)
      ((congrArg Findings.assertFailed e).symm.trans ha)
    rwa [← e] at hrec
  · rw [hn] at ha ⊢
    exact h.recorded n s m f hm hk hd ha

variable [DecidableEq V]

/-- **Step lemma.**  An iteration drops the node it pops, or visits it. -/
theorem traverseStep_visiting (queued : N → List N) {s s' : TraverseState F G V N}
    (h : traverseStep M pdg loop annotated s = some s') :
    ∃ n rest, s.workingList = n :: rest ∧
      (((loop.marking pdg queued).visiting s.toQueue = none ∧ s' = { s with workingList := rest }) ∨
        ((loop.marking pdg queued).visiting s.toQueue = some n ∧
          ∃ pv, s' = visitNode M pdg loop annotated n
            { s with workingList := rest, processedValues := pv })) := by
  unfold traverseStep at h
  split at h
  · cases h
  · next n rest hw =>
    refine ⟨n, rest, hw, ?_⟩
    have hpend : s.toQueue.pending = n :: rest := hw
    have hstop : (loop.marking pdg queued).stop n = loop.drop n := rfl
    have hkey : (loop.marking pdg queued).key n = loop.key n := rfl
    simp only [Marking.visiting, hpend, hstop, hkey]
    by_cases hd : loop.drop n = true
    · rw [if_pos hd] at h ⊢
      exact .inl ⟨rfl, (Option.some.inj h).symm⟩
    rw [if_neg hd] at h ⊢
    cases hk : loop.key n with
    | none =>
      rw [hk] at h
      exact .inr ⟨rfl, s.processedValues, (Option.some.inj h).symm⟩
    | some v =>
      rw [hk] at h
      dsimp only at h ⊢
      by_cases hv : v ∈ s.processedValues
      · have hmarked : v ∈ s.toQueue.marked := hv
        rw [if_pos hv] at h
        rw [if_pos hmarked]
        exact .inl ⟨rfl, (Option.some.inj h).symm⟩
      · have hmarked : v ∉ s.toQueue.marked := hv
        rw [if_neg hv] at h
        rw [if_neg hmarked]
        exact .inr ⟨rfl, insert v s.processedValues, (Option.some.inj h).symm⟩

/-- What an iteration does to the findings is nothing, or what the visit of its node does. -/
theorem traverseStep_effects (he : loop.Effects M pdg queued collects annotated)
    {s s' : TraverseState F G V N} (h : traverseStep M pdg loop annotated s = some s') :
    ∃ n, ReflTransGen (Effect M pdg queued collects annotated n) s.findings s'.findings ∧
      (s'.findings = s.findings ∨ (loop.marking pdg queued).visiting s.toQueue = some n) := by
  obtain ⟨n, rest, -, ⟨-, rfl⟩ | ⟨hv, pv, rfl⟩⟩ := traverseStep_visiting queued h
  · exact ⟨n, .refl, .inl rfl⟩
  · exact ⟨n, visitNode_effects he n { s with workingList := rest, processedValues := pv }, .inr hv⟩

end Visit

end Vazgen
