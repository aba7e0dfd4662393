import Vazgen.Analysis.RelatedLevels

/-!
# When the levels of the related functions are distances

A recorded level is the distance from the annotated function, and the function's current level, as
long as every level is passed on in time: not to a function that has been recorded at a higher level
or whose own edges have been followed at a higher level (`relatedFunctions_closest`).  The walks
visit nodes by their number of edges, so a level can come late (`lateUse_not_closest`), and a level
that comes late for a recorded function is never made good (`lateVisit_not_closest`).
-/

namespace Vazgen

open Worklist MinMap Relation Distance

variable {F G V N : Type} [DecidableEq F]

/-- Every recorded level is the current level of the function and its distance from the annotated
function along followed edges. -/
def Traced.RelatedClosest (pdg : PDG F G V N) (annotated : F) (x : Traced F G V N) : Prop :=
  ∀ f l, x.state.partition.relatedFunctions.lookup f = some l →
    x.state.functionLevels.lookup f = some l ∧
      ∃ k : Nat, l = k ∧ IsLeast { k | Walk (FunctionStep pdg x.followed) annotated k f } k

/-! ## Levels in time -/

/-- The visit of `n` passes the level of its parent on to `q`. -/
def PassesTo (pdg : PDG F G V N) (queued : N → List N) (n : N) (q : F) : Prop :=
  ∃ m ∈ queued n, pdg.getParent m = some q

/-- A function that the visit of `n` would give a lower level has not been recorded, and the edges
followed from its nodes lead to functions whose levels fit the lower one. -/
def OnTimeVisit (pdg : PDG F G V N) (queued : N → List N) (x : Traced F G V N) (n : N) : Prop :=
  pdg.functionOf n = none → ∀ p l q, pdg.getParent n = some p →
    x.state.functionLevels.lookup p = some l → PassesTo pdg queued n q → q ≠ p →
    (∃ c ≤ l + 1, x.state.functionLevels.lookup q = some c) ∨
      (q ∉ x.state.partition.relatedFunctions ∧ ∀ r, FunctionStep pdg x.followed q r →
        PassesTo pdg queued n r ∨ ∃ c ≤ l + 2, x.state.functionLevels.lookup r = some c)

/-- If the next iteration visits a node, it passes its parent's level on in time. -/
def Traced.OnTime [DecidableEq V] (pdg : PDG F G V N) (loop : TraverseLoop F G V N)
    (queued : N → List N) (x : Traced F G V N) : Prop :=
  ∀ n, (loop.marking pdg queued).visiting x.state.toQueue = some n → OnTimeVisit pdg queued x n

def ArgumentState.OnTime [DecidableEq V] (M : Module F G V) (pdg : PDG F G V N)
    (annot : Annotation F) (a : ArgumentState F G V N) : Prop :=
  match a.phase with
  | .between => True
  | .forward => a.traced.OnTime pdg (forwardLoop M pdg annot.getFunction) (forwardQueued pdg)
  | .backward => a.traced.OnTime pdg (backwardLoop pdg) (backwardQueued pdg)

section Effects

variable {M : Module F G V} {pdg : PDG F G V N} {queued collects : N → List N} {annotated : F}
  {n : N} {x y : Findings F}

/-- A visit of `n` that starts from `x` lowers the level of `f` to `c`, one more than the level of
its parent. -/
def Lowers (pdg : PDG F G V N) (queued : N → List N) (n : N) (x : Findings F) (f : F) (c : Int) :
    Prop :=
  ∃ p l, pdg.functionOf n = none ∧ pdg.getParent n = some p ∧
    x.functionLevels.lookup p = some l ∧ PassesTo pdg queued n f ∧ f ≠ p ∧ c = l + 1 ∧
    ∀ d, x.functionLevels.lookup f = some d → l + 1 < d

theorem lookup_level_of_pass (hn : pdg.functionOf n = none) {newF : Option F}
    (hto : ∀ q, newF = some q → PassesTo pdg queued n q) {f : F} {c : Int}
    (hf : (x.pass (pdg.getParent n) newF).functionLevels.lookup f = some c) :
    x.functionLevels.lookup f = some c ∨ Lowers pdg queued n x f c := by
  rw [Findings.pass_functionLevels] at hf
  rcases updateFunctionLevel_cases (pdg.getParent n) newF x.functionLevels with
    e | ⟨p, q, l, hp, hq, hne, hl, e⟩
  · rw [e] at hf
    exact .inl hf
  · rw [e] at hf
    by_cases hfq : f = q
    · subst hfq
      rw [lookup_insertMin_self] at hf
      cases hold : x.functionLevels.lookup f with
      | none =>
        rw [hold] at hf
        cases hf
        exact .inr ⟨p, l, hn, hp, hl, hto f hq, hne, rfl, fun d hd => nomatch hold.symm.trans hd⟩
      | some d =>
        rw [hold] at hf
        have hmin : min (l + 1) d = c := Option.some.inj hf
        by_cases hle : d ≤ l + 1
        · rw [min_eq_right hle] at hmin
          exact .inl (congrArg some hmin)
        · rw [min_eq_left (by omega)] at hmin
          refine .inr ⟨p, l, hn, hp, hl, hto f hq, hne, hmin.symm, fun d' hd' => ?_⟩
          cases hold.symm.trans hd'
          omega
    · rw [lookup_insertMin_of_ne hfq] at hf
      exact .inl hf

/-- What an effect can do to a level: leave it, or lower it to one more than the parent's. -/
theorem Effect.lookup_level (hc : CollectsOwnNodes pdg collects)
    (hsub : ∀ n, ∀ m ∈ collects n, m ∈ queued n)
    (h : Effect M pdg queued collects annotated n x y) {f : F} {c : Int}
    (hf : y.functionLevels.lookup f = some c) :
    x.functionLevels.lookup f = some c ∨ Lowers pdg queued n x f c := by
  cases h with
  | pass hn hm => exact lookup_level_of_pass hn (fun q hq => ⟨_, hm, hq⟩) hf
  | @formalArgument m g hn hm hk hd =>
    rw [Findings.record_functionLevels] at hf
    refine lookup_level_of_pass hn (fun q hq => ?_) hf
    cases hq
    exact ⟨m, hsub n m hm, hc n m _ hm hk⟩
  | function _ _ =>
    rw [Findings.record_functionLevels] at hf
    exact .inl hf

/-- What a visit can do to a level. -/
theorem lookup_level_of_effects (hc : CollectsOwnNodes pdg collects)
    (hsub : ∀ n, ∀ m ∈ collects n, m ∈ queued n)
    (h : ReflTransGen (Effect M pdg queued collects annotated n) x y) {f : F} {c : Int}
    (hf : y.functionLevels.lookup f = some c) :
    x.functionLevels.lookup f = some c ∨ Lowers pdg queued n x f c := by
  induction h with
  | refl => exact .inl hf
  | tail hsteps hstep ih =>
    rcases hstep.lookup_level hc hsub hf with hf | ⟨p, l, hn, hp, hl, hto, hne, rfl, hlt⟩
    · exact ih hf
    · -- the parent's level is the one before the visit, and that of `f` has been no lower then
      rw [lookup_parent_of_effects hsteps hp] at hl
      refine .inr ⟨p, l, hn, hp, hl, hto, hne, rfl, fun d hd => ?_⟩
      obtain ⟨e, he, hlow⟩ := below_of_effects hsteps f d hd
      have := hlt e hlow
      omega

/-- Passing the parent's level on changes the level of `f` no more. -/
def Settled (pdg : PDG F G V N) (n : N) (a : Findings F) (f : F) : Prop :=
  pdg.functionOf n = none → ∀ p l, pdg.getParent n = some p → a.functionLevels.lookup p = some l →
    ∃ c ≤ l + 1, a.functionLevels.lookup f = some c

theorem Settled.lookup_pass {a : Findings F} {f : F} (h : Settled pdg n a f)
    (hn : pdg.functionOf n = none) (newF : Option F) :
    (a.pass (pdg.getParent n) newF).functionLevels.lookup f = a.functionLevels.lookup f := by
  rw [Findings.pass_functionLevels]
  rcases updateFunctionLevel_cases (pdg.getParent n) newF a.functionLevels with
    e | ⟨p, q, l, hp, -, -, hl, e⟩
  · rw [e]
  · rw [e]
    by_cases hf : f = q
    · subst hf
      obtain ⟨c, hc, hlevel⟩ := h hn p l hp hl
      rw [lookup_insertMin_self, hlevel]
      exact congrArg some (min_eq_right hc)
    · exact lookup_insertMin_of_ne hf _ _

theorem Settled.pass {a : Findings F} {f : F} (h : Settled pdg n a f) (newF : Option F) :
    Settled pdg n (a.pass (pdg.getParent n) newF) f := by
  intro hn p l hp hl
  have hparent : a.functionLevels.lookup p = some l := by
    rw [Findings.pass_functionLevels, hp, lookup_updateFunctionLevel_parent] at hl
    exact hl
  rw [h.lookup_pass hn]
  exact h hn p l hp hparent

/-- A function that the visit records keeps the level it is recorded at to the end of the visit. -/
theorem lookup_related_of_effects_cases
    (h : ReflTransGen (Effect M pdg queued collects annotated n) x y) {f : F} {c : Int}
    (hf : y.relatedFunctions.lookup f = some c) :
    x.relatedFunctions.lookup f = some c ∨
      (y.functionLevels.lookup f = some c ∧ Settled pdg n y f) := by
  induction h with
  | refl => exact .inl hf
  | @tail a b _ hstep ih =>
    cases hstep with
    | pass hn hm =>
      refine (ih hf).imp_right fun ⟨hlevel, hs⟩ => ⟨?_, hs.pass _⟩
      rw [hs.lookup_pass hn]
      exact hlevel
    | @formalArgument m g hn hm hk hd =>
      have hlevels : ((a.pass (pdg.getParent n) (some g)).record g).functionLevels =
          (a.pass (pdg.getParent n) (some g)).functionLevels := Findings.record_functionLevels g _
      have hsettled : ∀ g', Settled pdg n (a.pass (pdg.getParent n) (some g)) g' →
          Settled pdg n ((a.pass (pdg.getParent n) (some g)).record g) g' := by
        intro g' hs
        unfold Settled at hs ⊢
        rw [hlevels]
        exact hs
      rw [hlevels]
      rcases Findings.lookup_record hf with hf | ⟨rfl, hlevel⟩
      · refine (ih hf).imp_right fun ⟨hlevel, hs⟩ => ⟨?_, hsettled _ (hs.pass _)⟩
        rw [hs.lookup_pass hn]
        exact hlevel
      · refine .inr ⟨hlevel, hsettled _ fun _ p l hp hl => ?_⟩
        rw [Findings.pass_functionLevels, hp] at hl ⊢
        rw [lookup_updateFunctionLevel_parent] at hl
        exact exists_level_updateFunctionLevel hl
    | @function g hn hr =>
      have hnone : ∀ b g', Settled pdg n b g' := fun b g' hn' => by
        rw [hn] at hn'
        cases hn'
      rw [Findings.record_functionLevels]
      rcases Findings.lookup_record hf with hf | ⟨rfl, hlevel⟩
      · exact (ih hf).imp_right fun ⟨hlevel, _⟩ => ⟨hlevel, hnone _ _⟩
      · exact .inr ⟨hlevel, hnone _ _⟩

end Effects

/-! ## Runs -/

/-- The levels make steps of at most one, recorded levels are current ones, and the annotated
function has level `0`. -/
structure Traced.Exact (pdg : PDG F G V N) (annotated : F) (x : Traced F G V N) : Prop where
  feasible : Feasible (FunctionStep pdg x.followed) x.state.functionLevels.lookup
  related : ∀ f l, x.state.partition.relatedFunctions.lookup f = some l →
    x.state.functionLevels.lookup f = some l
  annotated : x.state.functionLevels.lookup annotated = some 0

theorem Traced.Exact.relatedClosest {M : Module F G V} {pdg : PDG F G V N} {annotated : F}
    {x : Traced F G V N} (h : x.Exact pdg annotated) (hs : x.Sound M pdg annotated) :
    x.RelatedClosest pdg annotated := fun f l hl =>
  ⟨h.related f l hl,
    isLeast_of_label x.state.functionLevels.lookup h.annotated hs.findings.levels h.feasible
      (h.related f l hl)⟩

section Step

variable {M : Module F G V} {pdg : PDG F G V N} {annotated : F} {loop : TraverseLoop F G V N}
  {queued collects : N → List N}

/-- After a visit in time the levels still make steps of at most one along the edges followed before
it: the level of `p` has stayed, or the functions behind `p` fit the lower one. -/
theorem OnTimeVisit.exists_level (hc : CollectsOwnNodes pdg collects)
    (hsub : ∀ n, ∀ m ∈ collects n, m ∈ queued n) {x : Traced F G V N} {n : N} {b : Findings F}
    (h : OnTimeVisit pdg queued x n)
    (hfeasible : Feasible (FunctionStep pdg x.followed) x.state.functionLevels.lookup)
    (heffects : ReflTransGen (Effect M pdg queued collects annotated n) x.state.findings b)
    (hpasses : ∀ p l q, pdg.functionOf n = none → pdg.getParent n = some p →
      x.state.functionLevels.lookup p = some l → PassesTo pdg queued n q →
      ∃ c ≤ l + 1, b.functionLevels.lookup q = some c)
    {p q : F} {l : Int} (hstep : FunctionStep pdg x.followed p q)
    (hl : b.functionLevels.lookup p = some l) :
    ∃ c ≤ l + 1, b.functionLevels.lookup q = some c := by
  have hlow : Below x.state.functionLevels b.functionLevels := below_of_effects heffects
  rcases lookup_level_of_effects hc hsub heffects hl with
    hsame | ⟨p', l', hn, hp', hl', hpass, hne, rfl, hlt⟩
  · obtain ⟨c, hcl, hq⟩ := hfeasible p q l hstep hsame
    obtain ⟨c', hc', hq'⟩ := hlow q c hq
    exact ⟨c', hc'.trans hcl, hq'⟩
  · rcases h hn p' l' p hp' hl' hpass hne with ⟨c, hcl, hp⟩ | ⟨-, hr⟩
    · have := hlt c hp
      omega
    · rcases hr q hstep with hq | ⟨c, hcl, hq⟩
      · obtain ⟨c, hcl, hq⟩ := hpasses p' l' q hn hp' hl' hq
        exact ⟨c, by omega, hq⟩
      · obtain ⟨c', hc', hq'⟩ := hlow q c hq
        exact ⟨c', by omega, hq'⟩

/-- A visit in time leaves the levels of the functions recorded before it. -/
theorem OnTimeVisit.lookup_level (hc : CollectsOwnNodes pdg collects)
    (hsub : ∀ n, ∀ m ∈ collects n, m ∈ queued n) {x : Traced F G V N} {n : N} {b : Findings F}
    (h : OnTimeVisit pdg queued x n)
    (heffects : ReflTransGen (Effect M pdg queued collects annotated n) x.state.findings b)
    {f : F} {c : Int} (hrelated : f ∈ x.state.partition.relatedFunctions)
    (hlevel : x.state.functionLevels.lookup f = some c) : b.functionLevels.lookup f = some c := by
  obtain ⟨c', -, hnow⟩ := below_of_effects heffects f c hlevel
  rcases lookup_level_of_effects hc hsub heffects hnow with
    hsame | ⟨p, l, hn, hp, hl, hpass, hne, rfl, hlt⟩
  · rw [hnow, ← hsame]
    exact hlevel
  · rcases h hn p l f hp hl hpass hne with ⟨d, hd, hold⟩ | ⟨hno, -⟩
    · have := hlt d hold
      omega
    · exact absurd hrelated hno

/-- The visit of a node that passes its parent's level on in time. -/
theorem Traced.Exact.visit (hc : CollectsOwnNodes pdg collects)
    (he : loop.Effects M pdg queued collects annotated) {x y : Traced F G V N}
    (hsound : y.Sound M pdg annotated) (h : x.Exact pdg annotated) {n : N}
    (hon : OnTimeVisit pdg queued x n) (s : TraverseState F G V N)
    (hs : s.findings = x.state.findings) (hy : y.state = visitNode M pdg loop annotated n s)
    (hf : ∀ a m, y.followed a m ↔
      x.followed a m ∨ (a = n ∧ pdg.functionOf n = none ∧ m ∈ queued n)) :
    y.Exact pdg annotated := by
  have heffects : ReflTransGen (Effect M pdg queued collects annotated n) x.state.findings
      y.state.findings := by
    rw [hy, ← hs]
    exact visitNode_effects he n s
  have hpasses : ∀ p l q, pdg.functionOf n = none → pdg.getParent n = some p →
      x.state.functionLevels.lookup p = some l → PassesTo pdg queued n q →
      ∃ c ≤ l + 1, y.state.functionLevels.lookup q = some c := by
    rintro p l q hn hp hl ⟨m, hm, hq⟩
    rw [hy]
    refine visitNode_level he hn hp ?_ hm hq
    rw [show s.functionLevels = x.state.functionLevels from congrArg Findings.functionLevels hs]
    exact hl
  refine ⟨?_, fun f c hfc => ?_, ?_⟩
  · rintro p q l ⟨a, m, ham, hpa, hqm, hne⟩ hl
    rcases (hf a m).1 ham with hold | ⟨rfl, hn, hm⟩
    · exact hon.exists_level hc he.collects_subset h.feasible heffects hpasses
        ⟨a, m, hold, hpa, hqm, hne⟩ hl
    · have hparent : y.state.functionLevels.lookup p = x.state.functionLevels.lookup p :=
        lookup_parent_of_effects heffects hpa
      exact hpasses p l q hn hpa (hparent.symm.trans hl) ⟨m, hm, hqm⟩
  · rcases lookup_related_of_effects_cases heffects hfc with hold | ⟨hnew, -⟩
    · exact hon.lookup_level hc he.collects_subset heffects (Finmap.mem_of_lookup_eq_some hold)
        (h.related f c hold)
    · exact hnew
  · obtain ⟨c, hc0, hnow⟩ := below_of_effects heffects annotated 0 h.annotated
    obtain ⟨k, rfl, -⟩ := hsound.findings.levels annotated c hnow
    have hk : (k : Int) = 0 := by omega
    rw [hk] at hnow
    exact hnow

variable [DecidableEq V]

/-- **Step lemma.** -/
theorem Traced.Exact.step (hc : CollectsOwnNodes pdg collects)
    (he : loop.Effects M pdg queued collects annotated) {x y : Traced F G V N}
    (hsound : y.Sound M pdg annotated) (h : x.Exact pdg annotated)
    (hon : x.OnTime pdg loop queued) (hst : x.Step M pdg loop queued annotated y) :
    y.Exact pdg annotated := by
  obtain ⟨n, rest, hw, ⟨-, hy, hf⟩ | ⟨⟨pv, hy⟩, hv, hf⟩⟩ := hst.cases
  · refine ⟨?_, ?_, ?_⟩
    · rw [hf, hy]
      exact h.feasible
    · rw [hy]
      exact h.related
    · rw [hy]
      exact h.annotated
  · exact h.visit hc he hsound (hon n hv)
      { x.state with workingList := rest, processedValues := pv } rfl hy hf

end Step

section Runs

variable [DecidableEq V] {M : Module F G V} {pdg : PDG F G V N} {annot : Annotation F}

/-- Before the first forward walk nothing has been found; from then on the levels are exact. -/
def ArgumentState.Exact (pdg : PDG F G V N) (annot : Annotation F) (a : ArgumentState F G V N) :
    Prop :=
  (a.phase = .between ∧ a.traced = (ArgumentState.start annot).traced) ∨
    a.traced.Exact pdg annot.getFunction

omit [DecidableEq V] in
theorem Traced.Exact.startForward {annotated : F} {n : N} (hn : pdg.getParent n = some annotated)
    {x : Traced F G V N} (h : x.Exact pdg annotated) :
    (x.startForward pdg n).Exact pdg annotated := by
  have hlevels : (x.startForward pdg n).state.functionLevels = x.state.functionLevels := by
    rw [lookup_startForward hn, insertNew, if_pos (Finmap.mem_of_lookup_eq_some h.annotated)]
  refine ⟨?_, ?_, ?_⟩
  · rw [hlevels]
    exact h.feasible
  · rw [hlevels]
    exact h.related
  · rw [hlevels]
    exact h.annotated

omit [DecidableEq V] in
/-- The first forward walk starts with the annotated function at level `0`. -/
theorem exact_startForward {n : N} (hn : pdg.getParent n = some annot.getFunction) :
    ((ArgumentState.start (G := G) (V := V) annot).traced.startForward pdg n).Exact pdg
      annot.getFunction := by
  refine ⟨?_, fun f l hl => (nomatch hl), ?_⟩
  · rintro p q l ⟨a, m, ham, -⟩ -
    exact ham.elim
  · rw [lookup_startForward hn]
    exact lookup_insertNew_of_notMem Finmap.notMem_empty 0

theorem exact_argumentStep (hpdg : pdg.FormalArgsTyped) {a b : ArgumentState F G V N}
    (hsound : b.traced.Sound M pdg annot.getFunction) (h : a.Exact pdg annot)
    (hon : a.OnTime M pdg annot) (hst : ArgumentStep M pdg annot a b) : b.Exact pdg annot := by
  cases hst with
  | skip _ => exact h.imp_left fun ⟨_, hx⟩ => ⟨rfl, hx⟩
  | @startForward arg rest x n _ hn =>
    have hparent := hpdg.getParent _ _ (hpdg.kind _ _ _ hn)
    rcases h with ⟨-, hx⟩ | h
    · refine .inr ?_
      change x = _ at hx
      rw [hx]
      exact exact_startForward hparent
    · exact .inr (h.startForward hparent)
  | forward hst =>
    rcases h with ⟨hphase, -⟩ | h
    · cases hphase
    · exact .inr (h.step (hpdg.collectsOwnNodes _) (effects_forwardLoop M pdg _) hsound hon hst)
  | startBackward _ =>
    rcases h with ⟨hphase, -⟩ | h
    · cases hphase
    · exact .inr ⟨h.feasible, h.related, h.annotated⟩
  | backward hst =>
    rcases h with ⟨hphase, -⟩ | h
    · cases hphase
    · exact .inr (h.step (collectsOwnNodes_backward pdg) (effects_backwardLoop M pdg _) hsound hon
        hst)
  | next _ =>
    rcases h with ⟨hphase, -⟩ | h
    · cases hphase
    · exact .inr h

/-- **Run lemma.** -/
theorem exact_of_argumentSteps (hpdg : pdg.FormalArgsTyped) {a : ArgumentState F G V N}
    (h : ReflTransGen (fun a b => a.OnTime M pdg annot ∧ ArgumentStep M pdg annot a b)
      (.start annot) a) :
    a.traced.Sound M pdg annot.getFunction ∧ a.Exact pdg annot := by
  induction h with
  | refl => exact ⟨sound_of_argumentSteps hpdg .refl, .inl ⟨rfl, rfl⟩⟩
  | tail _ hst ih =>
    have hsound := sound_argumentStep hpdg ih.1 hst.2
    exact ⟨hsound, exact_argumentStep hpdg hsound ih.2 hst.1 hst.2⟩

theorem exact_of_returnSteps {x : Traced F G V N}
    (h : ReflTransGen (fun x y => x.OnTime pdg (returnLoop pdg) (backwardQueued pdg) ∧
      ReturnStep M pdg annot x y) (.startReturn M pdg annot) x) :
    x.Sound M pdg annot.getFunction ∧ x.Exact pdg annot.getFunction := by
  induction h with
  | refl =>
    refine ⟨sound_of_returnSteps .refl, ?_, fun f l hl => (nomatch hl), ?_⟩
    · rintro p q l ⟨a, m, ham, -⟩ -
      exact ham.elim
    · exact lookup_insertNew_of_notMem Finmap.notMem_empty 0
  | tail _ hst ih =>
    have hsound := ih.1.step (collectsOwnNodes_backward pdg) (queues_returnLoop pdg)
      (effects_returnLoop M pdg _) hst.2
    exact ⟨hsound, ih.2.step (collectsOwnNodes_backward pdg) (effects_returnLoop M pdg _) hsound
      hst.1 hst.2⟩

/-- **Levels that are passed on in time are distances.** -/
theorem relatedFunctions_closest (hpdg : pdg.FormalArgsTyped) :
    (∀ a, ReflTransGen (fun a b => a.OnTime M pdg annot ∧ ArgumentStep M pdg annot a b)
        (.start annot) a → a.traced.RelatedClosest pdg annot.getFunction) ∧
    ∀ x, ReflTransGen (fun x y => x.OnTime pdg (returnLoop pdg) (backwardQueued pdg) ∧
        ReturnStep M pdg annot x y) (.startReturn M pdg annot) x →
      x.RelatedClosest pdg annot.getFunction := by
  refine ⟨fun a ha => ?_, fun x hx => ?_⟩
  · obtain ⟨hsound, ⟨-, hx⟩ | hexact⟩ := exact_of_argumentSteps hpdg ha
    · rw [hx]
      exact fun f l hl => (nomatch hl)
    · exact hexact.relatedClosest hsound
  · obtain ⟨hsound, hexact⟩ := exact_of_returnSteps hx
    exact hexact.relatedClosest hsound

end Runs

section Levelled

variable {M : Module F G V} {pdg : PDG F G V N} {annotated : F} {loop : TraverseLoop F G V N}
  {queued collects : N → List N}

/-- The parent of the node has a level. -/
def TraverseState.Levelled (pdg : PDG F G V N) (s : TraverseState F G V N) (n : N) : Prop :=
  ∃ p c, pdg.getParent n = some p ∧ s.functionLevels.lookup p = some c

theorem TraverseState.Levelled.mono {s t : TraverseState F G V N} {n : N}
    (hlow : Below s.functionLevels t.functionLevels) (h : s.Levelled pdg n) : t.Levelled pdg n := by
  obtain ⟨p, c, hp, hc⟩ := h
  obtain ⟨d, -, hd⟩ := hlow p c hc
  exact ⟨p, d, hp, hd⟩

variable [DecidableEq V]

theorem Traced.Step.below (he : loop.Effects M pdg queued collects annotated)
    {x y : Traced F G V N} (h : x.Step M pdg loop queued annotated y) :
    Below x.state.functionLevels y.state.functionLevels := by
  obtain ⟨n, heffects, -⟩ := traverseStep_effects he h.state
  exact below_of_effects heffects

/-- **Step lemma.**  Where every node has a parent, a loop whose nodes have a level queues and
follows from levelled nodes only. -/
theorem Traced.Step.levelled (hparent : ∀ n, (pdg.getParent n).isSome) (hq : loop.Queues queued)
    (he : loop.Effects M pdg queued collects annotated) {x y : Traced F G V N}
    (hst : x.Step M pdg loop queued annotated y)
    (hpending : ∀ n ∈ x.state.workingList, x.state.Levelled pdg n)
    (hfollowed : ∀ n m, x.followed n m → x.state.Levelled pdg n) :
    (∀ n ∈ y.state.workingList, y.state.Levelled pdg n) ∧
      ∀ n m, y.followed n m → y.state.Levelled pdg n := by
  have hlow := hst.below he
  obtain ⟨n, rest, hw, ⟨-, hy, hf⟩ | ⟨⟨pv, hy⟩, -, hf⟩⟩ := hst.cases
  · rw [hy, hf]
    exact ⟨fun m hm => hpending m (hw ▸ List.mem_cons_of_mem n hm), hfollowed⟩
  · have hn : x.state.Levelled pdg n := hpending n (hw ▸ List.mem_cons_self)
    refine ⟨fun m hm => ?_, fun a m ham => ?_⟩
    · rw [hy, workingList_visitNode M pdg loop annotated hq] at hm
      rcases List.mem_append.1 hm with hm | hm
      · exact (hpending m (hw ▸ List.mem_cons_of_mem n hm)).mono hlow
      · cases hnf : pdg.functionOf n with
        | some f => simp [TraverseLoop.marking, hnf] at hm
        | none =>
          obtain ⟨p, l, hp, hl⟩ := hn
          obtain ⟨q, hq⟩ := Option.isSome_iff_exists.1 (hparent m)
          obtain ⟨c, -, hc⟩ := visitNode_level (s := { x.state with
            workingList := rest, processedValues := pv }) he hnf hp hl
            (by simpa [TraverseLoop.marking, hnf] using hm) hq
          rw [← hy] at hc
          exact ⟨q, c, hq, hc⟩
    · rcases (hf a m).1 ham with hold | ⟨rfl, -, -⟩
      · exact (hfollowed a m hold).mono hlow
      · exact hn.mono hlow

end Levelled

/-- The graph when `work` does nothing but pass its argument on to `log`, which calls `flush`. -/
def promptPDG : PDG LateFunction Empty LateNode LateNode :=
  { latePDG with
    outEdges := fun n => (lateEdges.take 4).filter (·.getSource = n)
    inEdges := fun _ => [] }

theorem promptPDG_formalArgsTyped : promptPDG.FormalArgsTyped :=
  ⟨latePDG_formalArgsTyped.kind, latePDG_formalArgsTyped.getParent⟩

theorem promptPDG_getParent (n : LateNode) : (promptPDG.getParent n).isSome := by
  cases n <;> rfl

/-- The number of calls on the way from `work`. -/
def LateFunction.depth : LateFunction → Nat
  | .work => 0
  | .log => 1
  | .flush => 2

/-- Every edge that leaves a function leads one call deeper. -/
theorem promptPDG_queued {n m : LateNode} {p q : LateFunction}
    (h : m ∈ forwardQueued promptPDG n ∨ m ∈ backwardQueued promptPDG n)
    (hp : promptPDG.getParent n = some p) (hq : promptPDG.getParent m = some q) (hne : p ≠ q) :
    q.depth = p.depth + 1 := by
  have hforward : m ∈ forwardQueued promptPDG n := h.resolve_right List.not_mem_nil
  have hdepth : promptPDG.getParent n = promptPDG.getParent m ∨
      (promptPDG.getParent m).map LateFunction.depth =
        (promptPDG.getParent n).map (·.depth + 1) := by
    revert hforward
    cases n <;> cases m <;> decide
  rw [hp, hq] at hdepth
  rcases hdepth with heq | hdepth
  · exact absurd (Option.some.inj heq) hne
  · exact Option.some.inj hdepth

theorem promptPDG_levelled {a : ArgumentState LateFunction Empty LateNode LateNode}
    (h : ReflTransGen (ArgumentStep lateModule promptPDG lateAnnotation) (.start lateAnnotation) a) :
    (a.phase = .forward → ∀ n ∈ a.traced.state.workingList, a.traced.state.Levelled promptPDG n) ∧
      ∀ n m, a.traced.followed n m → a.traced.state.Levelled promptPDG n := by
  induction h with
  | refl => exact ⟨nofun, fun _ _ hm => hm.elim⟩
  | tail _ hst ih =>
    obtain ⟨hpending, hfollowed⟩ := ih
    cases hst with
    | skip _ => exact ⟨nofun, hfollowed⟩
    | @startForward arg rest x n _ hn =>
      have hparent := promptPDG_formalArgsTyped.getParent _ _ (promptPDG_formalArgsTyped.kind _ _ _ hn)
      have hlevels := lookup_startForward hparent x
      refine ⟨fun _ m hm => ?_, fun a m ham => (hfollowed a m ham).mono ?_⟩
      · cases List.mem_singleton.1 hm
        have hmem : LateFunction.work ∈ (x.startForward promptPDG n).state.functionLevels := by
          rw [hlevels]
          exact mem_insertNew.2 (.inl rfl)
        obtain ⟨c, hc⟩ := Finmap.mem_iff.1 hmem
        exact ⟨_, c, hparent, hc⟩
      · rw [hlevels]
        exact below_insertNew _ _ _
    | forward hst =>
      have hnext := hst.levelled promptPDG_getParent (queues_forwardLoop _ _ _)
        (effects_forwardLoop _ _ _) (hpending rfl) hfollowed
      exact ⟨fun _ => hnext.1, hnext.2⟩
    | startBackward _ => exact ⟨nofun, hfollowed⟩
    | backward hst =>
      refine ⟨nofun, fun n m hm => ?_⟩
      rcases hst.followed_cases hm with hold | ⟨-, hqueued⟩
      · exact (hfollowed n m hold).mono (hst.below (effects_backwardLoop _ _ _))
      · cases hqueued
    | next _ => exact ⟨nofun, hfollowed⟩

/-- The levels are the depths, and an edge is followed only when its source has its level, so every
visit is in time. -/
theorem promptPDG_onTime {a : ArgumentState LateFunction Empty LateNode LateNode}
    (h : ReflTransGen (ArgumentStep lateModule promptPDG lateAnnotation) (.start lateAnnotation) a) :
    a.OnTime lateModule promptPDG lateAnnotation := by
  have hsound := sound_of_argumentSteps promptPDG_formalArgsTyped h
  have hwalk : ∀ k f, Walk (FunctionStep promptPDG a.traced.followed) .work k f → f.depth = k := by
    intro k f hw
    induction hw with
    | nil => rfl
    | snoc _ hlast ih =>
      obtain ⟨n, m, hnm, hp, hq, hne⟩ := hlast
      rw [promptPDG_queued (followed_of_argumentSteps h hnm).2 hp hq hne, ih]
  have hlevel : ∀ f l, a.traced.state.functionLevels.lookup f = some l → l = f.depth := by
    intro f l hl
    obtain ⟨k, rfl, hw⟩ := hsound.findings.levels f l hl
    rw [hwalk k f hw]
  have hvisit : ∀ queued : LateNode → List LateNode,
      (∀ n m, m ∈ queued n → m ∈ forwardQueued promptPDG n ∨ m ∈ backwardQueued promptPDG n) →
      ∀ n, OnTimeVisit promptPDG queued a.traced n := by
    rintro queued hqueued n - p l q hp hl ⟨m, hm, hq⟩ hne
    have hdepth := promptPDG_queued (hqueued n m hm) hp hq hne.symm
    cases hc : a.traced.state.functionLevels.lookup q with
    | some c =>
      have hp' := hlevel p l hl
      have hq' := hlevel q c hc
      exact .inl ⟨c, by omega, rfl⟩
    | none =>
      refine .inr ⟨fun hrelated => ?_, fun r hr => ?_⟩
      · obtain ⟨d, hd⟩ := Finmap.mem_iff.1 hrelated
        obtain ⟨c, -, hc'⟩ := hsound.findings.current q d hd
        cases hc.symm.trans hc'
      · obtain ⟨n', m', hfollowed, hn', -⟩ := hr
        obtain ⟨q', c, hq', hc'⟩ := (promptPDG_levelled h).2 n' m' hfollowed
        cases hn'.symm.trans hq'
        cases hc.symm.trans hc'
  obtain ⟨phase, rest, x⟩ := a
  cases phase with
  | between => trivial
  | forward => exact fun n _ => hvisit _ (fun _ _ hm => .inl hm) n
  | backward => exact fun n _ => hvisit _ (fun _ _ hm => .inr hm) n

theorem promptPDG_run {a : ArgumentState LateFunction Empty LateNode LateNode}
    (h : ReflTransGen (ArgumentStep lateModule promptPDG lateAnnotation) (.start lateAnnotation) a) :
    ReflTransGen (fun a b => a.OnTime lateModule promptPDG lateAnnotation ∧
      ArgumentStep lateModule promptPDG lateAnnotation a b) (.start lateAnnotation) a := by
  induction h with
  | refl => exact .refl
  | tail hsteps hst ih => exact ih.tail ⟨promptPDG_onTime hsteps, hst⟩

/-- `log` and, through it, `flush` are related at their distances from `work`. -/
theorem prompt_relatedFunctions_closest :
    ∃ x : Traced LateFunction Empty LateNode LateNode,
      PartitionForArguments.traverse lateModule promptPDG lateAnnotation 20 = some x.state ∧
      x.state.partition.relatedFunctions.lookup .log = some 1 ∧
      x.state.partition.relatedFunctions.lookup .flush = some 2 ∧
      x.RelatedClosest promptPDG .work := by
  have hlevels : (PartitionForArguments.traverse lateModule promptPDG lateAnnotation 20).map
      (fun t => (t.partition.relatedFunctions.lookup .log,
        t.partition.relatedFunctions.lookup .flush)) = some (some 1, some 2) := by decide
  obtain ⟨t, ht, hlookup⟩ := Option.map_eq_some_iff.1 hlevels
  obtain ⟨x, rfl, hrun⟩ := run_of_traverse ht
  obtain ⟨hlog, hflush⟩ := Prod.mk.inj hlookup
  have hclosest := (relatedFunctions_closest promptPDG_formalArgsTyped).1 _ (promptPDG_run hrun)
  exact ⟨x, ht, hlog, hflush, hclosest⟩

/-! ## Levels that come late -/

/-- The visit of `n` would give a lower level to a function that has been recorded, or to one from
whose nodes an edge to a recorded function has been followed whose level does not fit. -/
def LateVisit (pdg : PDG F G V N) (queued : N → List N) (x : Traced F G V N) (n : N) : Prop :=
  pdg.functionOf n = none ∧ ∃ p l q, pdg.getParent n = some p ∧
    x.state.functionLevels.lookup p = some l ∧ PassesTo pdg queued n q ∧ q ≠ p ∧
    ((q ∈ x.state.partition.relatedFunctions ∧
        ∀ c, x.state.functionLevels.lookup q = some c → l + 1 < c) ∨
      ∃ r, FunctionStep pdg x.followed q r ∧ r ∈ x.state.partition.relatedFunctions ∧
        ∀ c, x.state.functionLevels.lookup r = some c → l + 2 < c)

def Traced.Late [DecidableEq V] (pdg : PDG F G V N) (loop : TraverseLoop F G V N)
    (queued : N → List N) (x : Traced F G V N) : Prop :=
  ∃ n, (loop.marking pdg queued).visiting x.state.toQueue = some n ∧ LateVisit pdg queued x n

def ArgumentState.Late [DecidableEq V] (M : Module F G V) (pdg : PDG F G V N)
    (annot : Annotation F) (a : ArgumentState F G V N) : Prop :=
  match a.phase with
  | .between => False
  | .forward => a.traced.Late pdg (forwardLoop M pdg annot.getFunction) (forwardQueued pdg)
  | .backward => a.traced.Late pdg (backwardLoop pdg) (backwardQueued pdg)

/-- What has been recorded and followed stays so. -/
structure Traced.Extends (x y : Traced F G V N) : Prop where
  related : ∀ f l, x.state.partition.relatedFunctions.lookup f = some l →
    y.state.partition.relatedFunctions.lookup f = some l
  followed : ∀ n m, x.followed n m → y.followed n m

theorem Traced.Extends.refl (x : Traced F G V N) : x.Extends x := ⟨fun _ _ => id, fun _ _ => id⟩

theorem Traced.Extends.trans {x y z : Traced F G V N} (h : x.Extends y) (h' : y.Extends z) :
    x.Extends z where
  related f l hl := h'.related f l (h.related f l hl)
  followed n m hm := h'.followed n m (h.followed n m hm)

section Late

variable [DecidableEq V] {M : Module F G V} {pdg : PDG F G V N} {annotated : F}
  {annot : Annotation F} {loop : TraverseLoop F G V N} {queued collects : N → List N}
  {x y z : Traced F G V N}

theorem Traced.Step.extends (he : loop.Effects M pdg queued collects annotated)
    (h : x.Step M pdg loop queued annotated y) : x.Extends y := by
  refine ⟨fun f l hl => ?_, fun _ _ => h.followed_of_followed⟩
  obtain ⟨n, heffects, -⟩ := traverseStep_effects he h.state
  exact lookup_related_of_effects heffects hl

theorem extends_of_argumentSteps {a b : ArgumentState F G V N}
    (h : ReflTransGen (ArgumentStep M pdg annot) a b) : a.traced.Extends b.traced := by
  induction h with
  | refl => exact .refl _
  | tail _ hst ih =>
    refine ih.trans ?_
    cases hst with
    | skip _ => exact .refl _
    | startForward _ _ => exact ⟨fun _ _ => id, fun _ _ => id⟩
    | forward hst => exact hst.extends (effects_forwardLoop M pdg _)
    | startBackward _ => exact ⟨fun _ _ => id, fun _ _ => id⟩
    | backward hst => exact hst.extends (effects_backwardLoop M pdg _)
    | next _ => exact .refl _

theorem extends_of_returnSteps (h : ReflTransGen (ReturnStep M pdg annot) x y) : x.Extends y := by
  induction h with
  | refl => exact .refl _
  | tail _ hst ih => exact ih.trans (Traced.Step.extends (effects_returnLoop M pdg _) hst)

/-- A loop that has run out of nodes visits none, and so none late. -/
theorem not_late_of_workingList (hw : x.state.workingList = []) : ¬ x.Late pdg loop queued := by
  rintro ⟨n, hv, -⟩
  have hpend : x.state.toQueue.pending = [] := hw
  rw [Marking.visiting, hpend] at hv
  cases hv

omit [DecidableEq V] in
/-- A recorded function to which a walk shorter than its level has been followed. -/
theorem Traced.Sound.not_closest_of_walk (hx : x.Sound M pdg annotated) {f : F} {k : Nat}
    (hf : f ∈ x.state.partition.relatedFunctions)
    (hlow : ∀ c, x.state.functionLevels.lookup f = some c → (k : Int) < c) (hz : x.Extends z)
    (hwalk : Walk (FunctionStep pdg z.followed) annotated k f) :
    ¬ z.RelatedClosest pdg annotated := by
  obtain ⟨d, hd⟩ := Finmap.mem_iff.1 hf
  obtain ⟨c, hcd, hc⟩ := hx.findings.current f d hd
  intro hclosest
  obtain ⟨-, j, rfl, hj⟩ := hclosest f d (hz.related f d hd)
  have hjk := hj.2 hwalk
  have hkc := hlow c hc
  omega

/-- A late visit is not made good: the recorded level stays above the length of the new walk. -/
theorem Traced.Sound.not_closest_of_late (hx : x.Sound M pdg annotated)
    (he : loop.Effects M pdg queued collects annotated)
    (hst : x.Step M pdg loop queued annotated y) (hlate : x.Late pdg loop queued)
    (hz : y.Extends z) : ¬ z.RelatedClosest pdg annotated := by
  obtain ⟨n, hv, hn, p, l, q, hp, hl, ⟨m, hm, hq⟩, hne, hcase⟩ := hlate
  have hfollowed : y.followed n m := by
    rw [hst.followed]
    refine .inr ⟨hv, ?_⟩
    simpa [TraverseLoop.marking, hn] using hm
  have hext := (hst.extends he).trans hz
  obtain ⟨k, rfl, hk⟩ := hx.findings.levels p l hl
  have hwalk : Walk (FunctionStep pdg z.followed) annotated (k + 1) q :=
    (hk.mono fun _ _ => FunctionStep.mono hext.followed).snoc
      ⟨n, m, hz.followed n m hfollowed, hp, hq, hne.symm⟩
  rcases hcase with ⟨hrelated, hlow⟩ | ⟨r, hstep, hrelated, hlow⟩
  · exact hx.not_closest_of_walk hrelated hlow hext hwalk
  · exact hx.not_closest_of_walk hrelated hlow hext (hwalk.snoc (hstep.mono hext.followed))

/-- Once a visit has come late for a recorded function, its level is wrong for good. -/
theorem lateVisit_not_closest (hpdg : pdg.FormalArgsTyped) :
    (∀ a b c, ReflTransGen (ArgumentStep M pdg annot) (.start annot) a →
      ArgumentStep M pdg annot a b → a.Late M pdg annot →
      ReflTransGen (ArgumentStep M pdg annot) b c →
      ¬ c.traced.RelatedClosest pdg annot.getFunction) ∧
    ∀ x y z, ReflTransGen (ReturnStep M pdg annot) (.startReturn M pdg annot) x →
      ReturnStep M pdg annot x y → x.Late pdg (returnLoop pdg) (backwardQueued pdg) →
      ReflTransGen (ReturnStep M pdg annot) y z →
      ¬ z.RelatedClosest pdg annot.getFunction := by
  refine ⟨fun a b c ha hst hlate hc => ?_, fun x y z hx hst hlate hz => ?_⟩
  · have hsound := sound_of_argumentSteps hpdg ha
    have hext := extends_of_argumentSteps hc
    cases hst with
    | skip _ => exact hlate.elim
    | startForward _ _ => exact hlate.elim
    | forward hst => exact hsound.not_closest_of_late (effects_forwardLoop M pdg _) hst hlate hext
    | startBackward hw => exact (not_late_of_workingList hw hlate).elim
    | backward hst => exact hsound.not_closest_of_late (effects_backwardLoop M pdg _) hst hlate hext
    | next hw => exact (not_late_of_workingList hw hlate).elim
  · exact (sound_of_returnSteps hx).not_closest_of_late (effects_returnLoop M pdg _) hst hlate
      (extends_of_returnSteps hz)

end Late

/-- `flush` is recorded at level `2`, when the walk has come to it through `log`; then `work` itself
passes it level `1`, which the related functions do not take over. -/
theorem lateUse_not_closest :
    PartitionForArguments.canPartition lateModule latePDG lateAnnotation = true ∧
    ∃ x : Traced LateFunction Empty LateNode LateNode,
      PartitionForArguments.traverse lateModule latePDG lateAnnotation 20 = some x.state ∧
      ReflTransGen (ArgumentStep lateModule latePDG lateAnnotation) (.start lateAnnotation)
        ⟨.between, [], x⟩ ∧
      x.state.partition.relatedFunctions.lookup .flush = some 2 ∧
      Walk (FunctionStep latePDG x.followed) .work 1 .flush ∧
      ¬ x.RelatedClosest latePDG .work := by
  refine ⟨by decide, ?_⟩
  have hlevels : (PartitionForArguments.traverse lateModule latePDG lateAnnotation 20).map
      (fun t => (t.partition.relatedFunctions.lookup .flush, t.functionLevels.lookup .flush)) =
      some (some 2, some 1) := by decide
  obtain ⟨t, ht, hlookup⟩ := Option.map_eq_some_iff.1 hlevels
  obtain ⟨x, rfl, hrun⟩ := run_of_traverse ht
  obtain ⟨hrelated, hlevel⟩ := Prod.mk.inj hlookup
  refine ⟨x, ht, hrun, hrelated, ?_, fun h => ?_⟩
  · obtain ⟨k, hk, hwalk⟩ := (sound_of_argumentSteps latePDG_formalArgsTyped hrun).findings.levels
      .flush 1 hlevel
    have hk1 : k = 1 := by omega
    rwa [hk1] at hwalk
  · have hcur := (h .flush 2 hrelated).1
    rw [hlevel] at hcur
    cases hcur

end Vazgen
