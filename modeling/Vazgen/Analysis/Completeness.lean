import Vazgen.Analysis.AnalysisRun

/-!
# What the sensitivity analysis records

A walk records every defined function it reaches if every function gets its level in time and no
node is skipped that has something left to do (`WalkUnobstructed`, `walk_recorded`).  Both can fail:
`updateFunctionLevel` passes no level on over a node without a parent, and a node is skipped when
another one has been entered under its value (`globalUser_not_recorded`).  The assertion fails exactly
when a function is recorded without a level (`walk_assertFailed_iff`,
`walksLevelled_of_analysisComplete`).
-/

namespace Vazgen

open Worklist MinMap Relation

variable {F G V N : Type} [DecidableEq F]

section Definitions

variable (M : Module F G V) (pdg : PDG F G V N)

omit [DecidableEq F] in
/-- LLVM nodes carry a value; a function node is one of them, and its parent is its function. -/
structure PDG.WellTyped (pdg : PDG F G V N) : Prop where
  hasValue : ∀ n, pdg.isLLVMNode n = true → (pdg.getNodeValue n).isSome = true
  isLLVMNode : ∀ n f, pdg.functionOf n = some f → pdg.isLLVMNode n = true
  getParent : ∀ n f, pdg.functionOf n = some f → pdg.getParent n = some f

omit [DecidableEq F] in
/-- A walk goes on from LLVM nodes that are no function nodes. -/
def Followed (neighbours : N → List N) (start : N → Prop) : N → Prop :=
  Reached pdg (fun n => !pdg.isLLVMNode n) neighbours start

omit [DecidableEq F] in
/-- The assertion in `addRelatedFunction` has held, and every defined function other than the
annotated one whose node is reached is related. -/
structure Recorded (annotated : F) (reached : N → Prop) (t : TraverseState F G V N) : Prop where
  assertFailed : t.assertFailed = false
  related : ∀ n f, reached n → pdg.functionOf n = some f → Relatable M annotated f →
    f ∈ t.partition.relatedFunctions

/-! ## One iteration -/

omit [DecidableEq F] in
/-- The walk has started from `n` or followed an edge to it. -/
def Traced.Queued (x : Traced F G V N) (n : N) : Prop := n ∈ x.starts ∨ ∃ a, x.followed a n

omit [DecidableEq F] in
/-- Nothing is left to do at `n`: its function is related, or what a visit queues has been queued. -/
structure Traced.Done (x : Traced F G V N) (queued : N → List N) (annotated : F) (n : N) : Prop where
  related : ∀ f, pdg.functionOf n = some f → Relatable M annotated f →
    f ∈ x.state.partition.relatedFunctions
  queued : pdg.functionOf n = none → ∀ m ∈ queued n, x.Queued m

omit [DecidableEq F] in
/-- `f` is to have a level after the visit of `n`: the walk starts from `n`, its node, or its node is
queued, or a formal argument of it is collected. -/
def Traced.NeedsLevel (x : Traced F G V N) (queued collects : N → List N) (annotated : F) (n : N)
    (f : F) : Prop :=
  (pdg.functionOf n = some f ∧ Relatable M annotated f ∧ n ∈ x.starts) ∨
    (pdg.functionOf n = none ∧
      ((∃ m ∈ queued n, pdg.functionOf m = some f ∧ Relatable M annotated f) ∨
        ∃ m ∈ collects n, pdg.kind m = .formalArgument f ∧ M.isDeclaration f = false))

/-- The parent of `n` has a level. -/
def HasLevel (s : TraverseState F G V N) (n : N) : Prop :=
  ∃ p, pdg.getParent n = some p ∧ p ∈ s.functionLevels

variable [DecidableEq V]

/-- The iteration that pops `n` runs into none of the two faults.  If it visits `n`, a function that
needs a level has one or gets it from the parent of `n`; if it skips `n`, nothing is left to do
there. -/
structure Traced.Unobstructed (x : Traced F G V N) (loop : TraverseLoop F G V N)
    (queued collects : N → List N) (annotated : F) (n : N) : Prop where
  levels : (loop.marking pdg queued).visiting x.state.toQueue = some n →
    ∀ f, x.NeedsLevel M pdg queued collects annotated n f →
      f ∈ x.state.functionLevels ∨ HasLevel pdg x.state n
  skipped : (loop.marking pdg queued).visiting x.state.toQueue = none → loop.drop n = false →
    x.Done M pdg queued annotated n

omit [DecidableEq F] [DecidableEq V] in
/-- The state in which a walk enters its loop, with no past. -/
def Traced.enter (s : TraverseState F G V N) : Traced F G V N where
  state := s
  starts := { n | n ∈ s.workingList }

/-- No iteration of the walk from `s` is obstructed. -/
def WalkUnobstructed (loop : TraverseLoop F G V N) (queued collects : N → List N) (annotated : F)
    (s : TraverseState F G V N) : Prop :=
  ∀ x, ReflTransGen (Traced.Step M pdg loop queued annotated) (.enter s) x →
    ∀ n rest, x.state.workingList = n :: rest → x.Unobstructed M pdg loop queued collects annotated n

end Definitions

section Visit

variable {M : Module F G V} {pdg : PDG F G V N} {loop : TraverseLoop F G V N}
  {queued collects : N → List N} {annotated : F} {n : N}

omit [DecidableEq F] in
theorem Traced.Queued.mono {x y : Traced F G V N} (hs : y.starts = x.starts)
    (hf : ∀ a m, x.followed a m → y.followed a m) {m : N} (h : x.Queued m) : y.Queued m :=
  h.imp (fun hm => by rw [hs]; exact hm) fun ⟨a, ha⟩ => ⟨a, hf a m ha⟩

theorem mem_functionLevels_of_below {levels levels' : Finmap fun _ : F => Int}
    (h : Below levels levels') {f : F} (hf : f ∈ levels) : f ∈ levels' := by
  obtain ⟨l, hl⟩ := Finmap.mem_iff.1 hf
  obtain ⟨c, -, hc⟩ := h f l hl
  exact Finmap.mem_of_lookup_eq_some hc

/-- The assertion holds in a visit that records functions that have a level or get one from the
parent. -/
theorem assertFailed_of_records {x y : Findings F}
    (h : ReflTransGen (Effect M pdg queued collects annotated n) x y) (hx : x.assertFailed = false)
    (hlevel : ∀ f, Records M pdg collects annotated n f → f ∈ x.functionLevels ∨
      (pdg.functionOf n = none ∧ ∃ p, pdg.getParent n = some p ∧ p ∈ x.functionLevels)) :
    y.assertFailed = false := by
  induction h with
  | refl => exact hx
  | @tail a b hsteps hstep ih =>
    have hbelow := below_of_effects hsteps
    have hrecord : ∀ {a : Findings F} {f : F}, a.assertFailed = false → f ∈ a.functionLevels →
        (a.record f).assertFailed = false := by
      intro a f ha hf
      obtain ⟨l, hl⟩ := Finmap.mem_iff.1 hf
      unfold Findings.record
      rw [hl]
      exact ha
    cases hstep with
    | pass _ _ => exact ih
    | @formalArgument m f hn hm hk hd =>
      refine hrecord ih ?_
      rcases hlevel f (.inr ⟨hn, m, hm, hk, hd⟩) with hf | ⟨-, p, hp, hlevel⟩
      · exact mem_updateFunctionLevel_of_mem (mem_functionLevels_of_below hbelow hf)
      · rw [Findings.pass_functionLevels, hp]
        exact mem_updateFunctionLevel (mem_functionLevels_of_below hbelow hlevel)
    | @function f hn hr =>
      refine hrecord ih (mem_functionLevels_of_below hbelow ?_)
      rcases hlevel f (.inl ⟨hn, hr⟩) with hf | ⟨hnone, -⟩
      · exact hf
      · rw [hn] at hnone
        cases hnone

end Visit

/-! ## A walk -/

/-- What the iterations of a walk keep.  A function node that is pending has a level unless the walk
has started from it, and at a queued node that is not pending nothing is left to do. -/
structure Traced.Carried (M : Module F G V) (pdg : PDG F G V N) (x : Traced F G V N)
    (loop : TraverseLoop F G V N) (queued : N → List N) (annotated : F) : Prop where
  assertFailed : x.state.assertFailed = false
  pending : ∀ n ∈ x.state.workingList, ∀ f, pdg.functionOf n = some f → Relatable M annotated f →
    f ∈ x.state.functionLevels ∨ n ∈ x.starts
  done : ∀ n, x.Queued n → n ∈ x.state.workingList ∨ loop.drop n = true ∨
    x.Done M pdg queued annotated n

section Walk

variable [DecidableEq V] {M : Module F G V} {pdg : PDG F G V N} {loop : TraverseLoop F G V N}
  {queued neighbours collects : N → List N} {annotated : F} {x y : Traced F G V N}

omit [DecidableEq F] [DecidableEq V] in
/-- An iteration that drops or skips the node it pops. -/
theorem Traced.Carried.skip (h : x.Carried M pdg loop queued annotated) {n : N} {rest : List N}
    (hw : x.state.workingList = n :: rest) (hs : y.starts = x.starts)
    (hy : y.state = { x.state with workingList := rest }) (hf : y.followed = x.followed)
    (hn : loop.drop n = true ∨ x.Done M pdg queued annotated n) :
    y.Carried M pdg loop queued annotated := by
  have hqueued : ∀ m, y.Queued m ↔ x.Queued m := by
    intro m
    unfold Traced.Queued
    rw [hs, hf]
  have hdone : ∀ m, x.Done M pdg queued annotated m → y.Done M pdg queued annotated m := by
    intro m hm
    refine ⟨?_, fun hnone a ha => (hqueued a).2 (hm.queued hnone a ha)⟩
    rw [hy]
    exact hm.related
  refine ⟨by rw [hy]; exact h.assertFailed, fun m hm => ?_, fun m hm => ?_⟩
  · rw [hy] at hm ⊢
    rw [hs]
    exact h.pending m (by rw [hw]; exact List.mem_cons_of_mem n hm)
  · rw [hy]
    rcases h.done m ((hqueued m).1 hm) with hm | hm | hm
    · rw [hw, List.mem_cons] at hm
      rcases hm with rfl | hm
      · exact .inr (hn.imp_right (hdone m))
      · exact .inl hm
    · exact .inr (.inl hm)
    · exact .inr (.inr (hdone m hm))

omit [DecidableEq F] [DecidableEq V] in
/-- The function of a pending function node that is visited has its level. -/
theorem Traced.Carried.mem_functionLevels (hwt : pdg.WellTyped)
    (h : x.Carried M pdg loop queued annotated) {n : N} (hpending : n ∈ x.state.workingList)
    (hlevels : ∀ f, x.NeedsLevel M pdg queued collects annotated n f →
      f ∈ x.state.functionLevels ∨ HasLevel pdg x.state n) {f : F} (hn : pdg.functionOf n = some f)
    (hr : Relatable M annotated f) : f ∈ x.state.functionLevels := by
  rcases h.pending n hpending f hn hr with hlevel | hstart
  · exact hlevel
  · rcases hlevels f (.inl ⟨hn, hr, hstart⟩) with hlevel | ⟨p, hp, hlevel⟩
    · exact hlevel
    · rw [hwt.getParent n f hn] at hp
      cases hp
      exact hlevel

omit [DecidableEq V] in
/-- The function of a queued function node has a level after the visit, if it had one before or the
parent of the visited node has. -/
theorem mem_functionLevels_of_queued (hwt : pdg.WellTyped)
    (he : loop.Effects M pdg queued collects annotated) {s : TraverseState F G V N} {n m : N} {f : F}
    (hn : pdg.functionOf n = none) (hm : m ∈ queued n) (hf : pdg.functionOf m = some f)
    (hlevel : f ∈ s.functionLevels ∨ HasLevel pdg s n) :
    f ∈ (visitNode M pdg loop annotated n s).functionLevels := by
  rcases hlevel with hlevel | ⟨p, hp, hlevel⟩
  · exact mem_functionLevels_of_below (below_of_effects (visitNode_effects he n s)) hlevel
  · obtain ⟨l, hl⟩ := Finmap.mem_iff.1 hlevel
    obtain ⟨c, -, hc⟩ := visitNode_level he hn hp hl hm (hwt.getParent m f hf)
    exact Finmap.mem_of_lookup_eq_some hc

omit [DecidableEq V] in
/-- An iteration that visits the node it pops: what is to be recorded has its level, and what is
queued gets it. -/
theorem Traced.Carried.visit (hwt : pdg.WellTyped) (hq : loop.Queues queued)
    (he : loop.Effects M pdg queued collects annotated)
    (h : x.Carried M pdg loop queued annotated) {n : N} {rest : List N} {pv : Finset V}
    (hw : x.state.workingList = n :: rest) (hs : y.starts = x.starts)
    (hlevels : ∀ f, x.NeedsLevel M pdg queued collects annotated n f →
      f ∈ x.state.functionLevels ∨ HasLevel pdg x.state n)
    (hy : y.state = visitNode M pdg loop annotated n
      { x.state with workingList := rest, processedValues := pv })
    (hf : ∀ a m, y.followed a m ↔
      x.followed a m ∨ (a = n ∧ pdg.functionOf n = none ∧ m ∈ queued n)) :
    y.Carried M pdg loop queued annotated := by
  have heffects : ReflTransGen (Effect M pdg queued collects annotated n) x.state.findings
      y.state.findings := by
    rw [hy]
    exact visitNode_effects he n { x.state with workingList := rest, processedValues := pv }
  have hpending : n ∈ x.state.workingList := hw ▸ List.mem_cons_self
  have hgiven : ∀ m ∈ queued n, pdg.functionOf n = none → ∀ f, pdg.functionOf m = some f →
      Relatable M annotated f → f ∈ y.state.functionLevels := by
    intro m hm hnone f hfm hr
    rw [hy]
    exact mem_functionLevels_of_queued hwt he hnone hm hfm
      (hlevels f (.inr ⟨hnone, .inl ⟨m, hm, hfm, hr⟩⟩))
  have hassert : y.state.assertFailed = false := by
    refine assertFailed_of_records heffects h.assertFailed fun f hrecords => ?_
    rcases hrecords with ⟨hn, hr⟩ | ⟨hnone, m, hm, hk, hd⟩
    · exact .inl (h.mem_functionLevels hwt hpending hlevels hn hr)
    · exact (hlevels f (.inr ⟨hnone, .inr ⟨m, hm, hk, hd⟩⟩)).imp_right fun hparent =>
        ⟨hnone, hparent⟩
  have hqueued : ∀ m, x.Queued m → y.Queued m :=
    fun m hm => hm.mono hs fun a m ham => (hf a m).2 (.inl ham)
  have hdone : ∀ m, x.Done M pdg queued annotated m → y.Done M pdg queued annotated m := by
    refine fun m hm => ⟨fun f hfm hr => ?_, fun hnone a ha => hqueued a (hm.queued hnone a ha)⟩
    obtain ⟨l, hl⟩ := Finmap.mem_iff.1 (hm.related f hfm hr)
    exact Finmap.mem_of_lookup_eq_some (lookup_related_of_effects heffects hl)
  have hvisited : y.Done M pdg queued annotated n := by
    refine ⟨fun f hn hr => ?_, fun hnone m hm => .inr ⟨n, (hf n m).2 (.inr ⟨rfl, hnone, hm⟩)⟩⟩
    rw [hy] at hassert ⊢
    exact visitNode_recorded he (.inl ⟨hn, hr⟩) hassert
  have hwork : y.state.workingList = rest ++ (loop.marking pdg queued).succ n := by
    rw [hy, workingList_visitNode M pdg loop annotated hq]
  have hsucc : ∀ m, m ∈ (loop.marking pdg queued).succ n ↔
      pdg.functionOf n = none ∧ m ∈ queued n := by
    intro m
    unfold TraverseLoop.marking
    cases hn : pdg.functionOf n <;> simp [hn]
  refine ⟨hassert, fun m hm f hfm hr => ?_, fun m hm => ?_⟩
  · rw [hwork, List.mem_append, hsucc] at hm
    rcases hm with hm | ⟨hnone, hm⟩
    · rw [hs]
      exact (h.pending m (by rw [hw]; exact List.mem_cons_of_mem n hm) f hfm hr).imp_left
        (mem_functionLevels_of_below (below_of_effects heffects))
    · exact .inl (hgiven m hm hnone f hfm hr)
  · rw [hwork, List.mem_append, hsucc]
    have hold : x.Queued m → (m ∈ rest ∨ pdg.functionOf n = none ∧ m ∈ queued n) ∨
        loop.drop m = true ∨ y.Done M pdg queued annotated m := by
      intro hm
      rcases h.done m hm with hm | hm | hm
      · rw [hw, List.mem_cons] at hm
        rcases hm with rfl | hm
        · exact .inr (.inr hvisited)
        · exact .inl (.inl hm)
      · exact .inr (.inl hm)
      · exact .inr (.inr (hdone m hm))
    rcases hm with hm | ⟨a, ham⟩
    · exact hold (.inl (hs ▸ hm))
    · rcases (hf a m).1 ham with ham | ⟨rfl, hnone, hm⟩
      · exact hold (.inr ⟨a, ham⟩)
      · exact .inl (.inr ⟨hnone, hm⟩)

/-- **Step lemma.** -/
theorem Traced.Carried.step (hwt : pdg.WellTyped) (hq : loop.Queues queued)
    (he : loop.Effects M pdg queued collects annotated)
    (h : x.Carried M pdg loop queued annotated)
    (hfree : ∀ n rest, x.state.workingList = n :: rest →
      x.Unobstructed M pdg loop queued collects annotated n)
    (hst : x.Step M pdg loop queued annotated y) : y.Carried M pdg loop queued annotated := by
  obtain ⟨n, rest, hw, ⟨hv, hy, hf⟩ | ⟨⟨pv, hy⟩, hv, hf⟩⟩ := hst.cases
  · refine h.skip hw hst.starts hy hf ?_
    cases hdrop : loop.drop n with
    | true => exact .inl rfl
    | false => exact .inr ((hfree n rest hw).skipped hv hdrop)
  · exact h.visit hwt hq he hw hst.starts ((hfree n rest hw).levels hv) hy hf

/-- **Run lemma.** -/
theorem carried_of_steps (hwt : pdg.WellTyped) (hq : loop.Queues queued)
    (he : loop.Effects M pdg queued collects annotated) {s : TraverseState F G V N}
    (hfree : WalkUnobstructed M pdg loop queued collects annotated s) (hs : s.assertFailed = false)
    (hsteps : ReflTransGen (Traced.Step M pdg loop queued annotated) (.enter s) y) :
    y.starts = { n | n ∈ s.workingList } ∧ y.Carried M pdg loop queued annotated := by
  induction hsteps with
  | refl =>
    refine ⟨rfl, hs, fun n hn _ _ _ => .inr hn, fun n hn => .inl ?_⟩
    exact hn.resolve_right fun ⟨_, ha⟩ => ha
  | tail hsteps hst ih => exact ⟨hst.starts.trans ih.1, ih.2.step hwt hq he (hfree _ hsteps) hst⟩

/-- The functions that need a level in the visit of `n`, or would if the walk started there. -/
def needing (pdg : PDG F G V N) (queued collects : N → List N) (n : N) : List F :=
  match pdg.functionOf n with
  | some f => [f]
  | none => (queued n).filterMap pdg.functionOf ++ (collects n).filterMap fun m =>
      match pdg.kind m with
      | .formalArgument f => some f
      | _ => none

/-- The next iteration drops its node, or it visits it and every function gets its level. -/
def visitsFreely (M : Module F G V) (pdg : PDG F G V N) (loop : TraverseLoop F G V N)
    (queued collects : N → List N) (u : TraverseState F G V N) : Bool :=
  match u.workingList with
  | [] => true
  | n :: _ => loop.drop n || (((loop.marking pdg queued).visiting u.toQueue).isSome &&
      (needing pdg queued collects n).all fun f => M.isDeclaration f ||
        decide (f ∈ u.functionLevels) || (pdg.getParent n).any fun p => decide (p ∈ u.functionLevels))

theorem walkUnobstructed_of_alongRun {s : TraverseState F G V N} (fuel : Nat)
    (h : alongRun (traverseStep M pdg loop annotated) (visitsFreely M pdg loop queued collects) fuel
      s = true) : WalkUnobstructed M pdg loop queued collects annotated s := by
  intro x hsteps n rest hw
  have hreaches : Reaches (traverseStep M pdg loop annotated) s x.state :=
    ReflTransGen.lift (f := Traced.state) (fun _ _ hst => hst.state) _ _ hsteps
  have hfree := of_alongRun h hreaches
  unfold visitsFreely at hfree
  rw [hw] at hfree
  dsimp only at hfree
  rw [Bool.or_eq_true, Bool.and_eq_true, List.all_eq_true] at hfree
  refine ⟨fun hv f hneeds => ?_, fun hv hdrop => ?_⟩
  · rcases hfree with hdrop | ⟨-, hall⟩
    · simp [Marking.visiting, TraverseState.toQueue, TraverseLoop.marking, hw, hdrop] at hv
    · obtain ⟨hmem, hdecl⟩ : f ∈ needing pdg queued collects n ∧ M.isDeclaration f = false := by
        unfold needing
        rcases hneeds with ⟨hn, hr, -⟩ | ⟨hn, ⟨m, hm, hf, hr⟩ | ⟨m, hm, hk, hd⟩⟩
        · rw [hn]
          exact ⟨List.mem_singleton_self f, hr.1⟩
        · rw [hn]
          exact ⟨List.mem_append_left _ (List.mem_filterMap.2 ⟨m, hm, hf⟩), hr.1⟩
        · rw [hn]
          exact ⟨List.mem_append_right _ (List.mem_filterMap.2 ⟨m, hm, by rw [hk]⟩), hd⟩
      have hlevel := hall f hmem
      rw [hdecl, Bool.false_or, Bool.or_eq_true, decide_eq_true_eq, Option.any_eq_true] at hlevel
      refine hlevel.imp_right fun hparent => ?_
      obtain ⟨p, hp, hparent⟩ := hparent
      exact ⟨p, hp, of_decide_eq_true hparent⟩
  · rcases hfree with hdrop' | ⟨hvisits, -⟩
    · rw [hdrop] at hdrop'
      cases hdrop'
    · rw [hv] at hvisits
      cases hvisits

/-- **A walk that is not obstructed records what it reaches.** -/
theorem walk_recorded (hwt : pdg.WellTyped) (hq : loop.Queues queued)
    (hn : QueuesNeighbours pdg queued neighbours)
    (he : loop.Effects M pdg queued collects annotated)
    (hdrop : ∀ n, loop.drop n = !pdg.isLLVMNode n) {fuel : Nat} {s t : TraverseState F G V N}
    (hfree : WalkUnobstructed M pdg loop queued collects annotated s)
    (hs : s.assertFailed = false)
    (hrun : whileSome (traverseStep M pdg loop annotated) fuel s = some t) :
    Recorded M pdg annotated (Followed pdg neighbours (· ∈ s.workingList)) t := by
  obtain ⟨y, rfl, hempty, hsteps⟩ := steps_of_whileSome queued (.enter s) hrun
  obtain ⟨hstarts, hcarried⟩ := carried_of_steps hwt hq he hfree hs hsteps
  have hall : ∀ n, Followed pdg neighbours (· ∈ s.workingList) n → y.Queued n := by
    intro n hr
    induction hr with
    | start hm => exact .inl (by rw [hstarts]; exact hm)
    | @next n m _ hllvm hnone hm hcan ih =>
      have hdone := (hcarried.done n ih).resolve_left (by rw [hempty]; exact List.not_mem_nil)
      rw [hdrop, hllvm] at hdone
      exact (hdone.resolve_left (by decide)).queued hnone m ((hn n m).2 ⟨hm, hcan⟩)
  refine ⟨hcarried.assertFailed, fun n f hr hf hrel => ?_⟩
  have hdone := (hcarried.done n (hall n hr)).resolve_left (by rw [hempty]; exact List.not_mem_nil)
  rw [hdrop, hwt.isLLVMNode n f hf] at hdone
  exact (hdone.resolve_left (by decide)).related f hf hrel

end Walk

/-! ## What is not made good -/

section Obstructed

variable [DecidableEq V] {M : Module F G V} {pdg : PDG F G V N} {loop : TraverseLoop F G V N}
  {queued collects : N → List N} {annotated : F} {x y z : Traced F G V N}

omit [DecidableEq V] in
/-- A visit gives no levels but those that the parent passes on. -/
theorem mem_functionLevels_of_effects {n : N} {a b : Findings F}
    (h : ReflTransGen (Effect M pdg queued collects annotated n) a b) {f : F}
    (hf : f ∈ b.functionLevels) : f ∈ a.functionLevels ∨
      (pdg.functionOf n = none ∧ ∃ p, pdg.getParent n = some p ∧ p ∈ a.functionLevels) := by
  induction h with
  | refl => exact .inl hf
  | @tail b c hsteps hstep ih =>
    have hpass : ∀ newF, pdg.functionOf n = none →
        f ∈ updateFunctionLevel (pdg.getParent n) newF b.functionLevels →
        f ∈ a.functionLevels ∨
          (pdg.functionOf n = none ∧ ∃ p, pdg.getParent n = some p ∧ p ∈ a.functionLevels) := by
      intro newF hn hf
      rcases updateFunctionLevel_cases (pdg.getParent n) newF b.functionLevels with
        e | ⟨p, q, l, hp, -, -, hl, -⟩
      · rw [e] at hf
        exact ih hf
      · rw [lookup_parent_of_effects hsteps hp] at hl
        exact .inr ⟨hn, p, hp, Finmap.mem_of_lookup_eq_some hl⟩
    cases hstep with
    | pass hn _ => exact hpass _ hn hf
    | formalArgument hn _ _ _ =>
      rw [Findings.record_functionLevels] at hf
      exact hpass _ hn hf
    | function _ _ =>
      rw [Findings.record_functionLevels] at hf
      exact ih hf

/-- Every related function has a level. -/
def TraverseState.RelatedLevelled (s : TraverseState F G V N) : Prop :=
  ∀ f ∈ s.partition.relatedFunctions, f ∈ s.functionLevels

omit [DecidableEq V] in
theorem related_levelled_of_effects {n : N} {a b : Findings F}
    (h : ReflTransGen (Effect M pdg queued collects annotated n) a b)
    (ha : ∀ f ∈ a.relatedFunctions, f ∈ a.functionLevels) :
    ∀ f ∈ b.relatedFunctions, f ∈ b.functionLevels := by
  induction h with
  | refl => exact ha
  | @tail b c _ hstep ih =>
    intro f hf
    obtain ⟨l, hl⟩ := Finmap.mem_iff.1 hf
    cases hstep with
    | pass _ _ => exact mem_updateFunctionLevel_of_mem (ih f hf)
    | formalArgument _ _ _ _ =>
      rw [Findings.record_functionLevels]
      rcases Findings.lookup_record hl with hl | ⟨rfl, hlevel⟩
      · exact mem_updateFunctionLevel_of_mem (ih f (Finmap.mem_of_lookup_eq_some hl))
      · exact Finmap.mem_of_lookup_eq_some hlevel
    | function _ _ =>
      rw [Findings.record_functionLevels]
      rcases Findings.lookup_record hl with hl | ⟨rfl, hlevel⟩
      · exact ih f (Finmap.mem_of_lookup_eq_some hl)
      · exact Finmap.mem_of_lookup_eq_some hlevel

/-- The next iteration visits `n` and records `f`, which has no level and gets none. -/
structure Traced.Levelless (M : Module F G V) (pdg : PDG F G V N) (x : Traced F G V N)
    (loop : TraverseLoop F G V N) (queued collects : N → List N) (annotated : F) (n : N) (f : F) :
    Prop where
  visiting : (loop.marking pdg queued).visiting x.state.toQueue = some n
  records : Records M pdg collects annotated n f
  notMem : f ∉ x.state.functionLevels
  parent : pdg.functionOf n = none → ¬ HasLevel pdg x.state n

theorem Traced.Step.relatedLevelled (he : loop.Effects M pdg queued collects annotated)
    (h : x.Step M pdg loop queued annotated y) (hx : x.state.RelatedLevelled) :
    y.state.RelatedLevelled := by
  obtain ⟨n, heffects, -⟩ := traverseStep_effects he h.state
  exact related_levelled_of_effects heffects hx

/-- A failed assertion is not taken back. -/
theorem assertFailed_of_steps (he : loop.Effects M pdg queued collects annotated)
    (h : ReflTransGen (Traced.Step M pdg loop queued annotated) x y)
    (hy : y.state.assertFailed = false) : x.state.assertFailed = false := by
  induction h with
  | refl => exact hy
  | tail _ hst ih =>
    obtain ⟨n, heffects, -⟩ := traverseStep_effects he hst.state
    exact ih (assertFailed_of_effects heffects hy)

/-- The assertion fails where a function without a level is recorded. -/
theorem Traced.Levelless.assertFailed (he : loop.Effects M pdg queued collects annotated)
    (hx : x.state.RelatedLevelled) {n : N} {f : F}
    (h : x.Levelless M pdg loop queued collects annotated n f)
    (hst : x.Step M pdg loop queued annotated y) : y.state.assertFailed = true := by
  obtain ⟨n', rest, -, ⟨hv, -, -⟩ | ⟨⟨pv, hy⟩, hv, -⟩⟩ := hst.cases
  · cases hv.symm.trans h.visiting
  · cases hv.symm.trans h.visiting
    by_contra hassert
    rw [Bool.not_eq_true] at hassert
    have heffects := visitNode_effects he n
      { x.state with workingList := rest, processedValues := pv }
    have hrelated : f ∈ y.state.partition.relatedFunctions := by
      rw [hy] at hassert ⊢
      exact visitNode_recorded he h.records hassert
    have hlevel := related_levelled_of_effects heffects hx f (by rw [hy] at hrelated; exact hrelated)
    rcases mem_functionLevels_of_effects heffects hlevel with hold | ⟨hn, hparent⟩
    · exact h.notMem hold
    · exact h.parent hn hparent

/-- No iteration of the walk from `s` records a function without a level. -/
def WalkLevelled (M : Module F G V) (pdg : PDG F G V N) (loop : TraverseLoop F G V N)
    (queued collects : N → List N) (annotated : F) (s : TraverseState F G V N) : Prop :=
  ∀ x, ReflTransGen (Traced.Step M pdg loop queued annotated) (.enter s) x →
    ∀ n f, ¬ x.Levelless M pdg loop queued collects annotated n f

theorem relatedLevelled_of_steps (he : loop.Effects M pdg queued collects annotated)
    (h : ReflTransGen (Traced.Step M pdg loop queued annotated) x y)
    (hx : x.state.RelatedLevelled) : y.state.RelatedLevelled := by
  induction h with
  | refl => exact hx
  | tail _ hst ih => exact hst.relatedLevelled he ih

variable {fuel : Nat} {s t : TraverseState F G V N}

/-- The walk goes on from where a function without a level is recorded, and the assertion stays
failed. -/
theorem walkLevelled_of_assertFailed (he : loop.Effects M pdg queued collects annotated)
    (hlevels : s.RelatedLevelled)
    (hrun : whileSome (traverseStep M pdg loop annotated) fuel s = some t)
    (ht : t.assertFailed = false) : WalkLevelled M pdg loop queued collects annotated s := by
  obtain ⟨z, rfl, hempty, hz⟩ := steps_of_whileSome queued (.enter s) hrun
  intro x hx n f hlevelless
  rcases ReflTransGen.cases_head (steps_to_end hempty hz hx) with rfl | ⟨y, hst, hyz⟩
  · have hpend : x.state.toQueue.pending = [] := hempty
    have hv := hlevelless.visiting
    rw [Marking.visiting, hpend] at hv
    cases hv
  · have hfailed := hlevelless.assertFailed he (relatedLevelled_of_steps he hx hlevels) hst
    rw [assertFailed_of_steps he hyz ht] at hfailed
    cases hfailed

/-- **When the assertion of a walk holds.**  A walk that ends has not failed it exactly if no
iteration has recorded a function without a level. -/
theorem walk_assertFailed_iff (he : loop.Effects M pdg queued collects annotated)
    (hs : s.assertFailed = false) (hlevels : s.RelatedLevelled)
    (hrun : whileSome (traverseStep M pdg loop annotated) fuel s = some t) :
    t.assertFailed = false ↔ WalkLevelled M pdg loop queued collects annotated s := by
  refine ⟨walkLevelled_of_assertFailed he hlevels hrun, fun hlevelled => ?_⟩
  obtain ⟨z, rfl, -, hz⟩ := steps_of_whileSome queued (.enter s) hrun
  clear hrun
  induction hz with
  | refl => exact hs
  | @tail a b ha hst ih =>
    obtain ⟨n, heffects, heq | hv⟩ := traverseStep_effects he hst.state
    · exact (congrArg Findings.assertFailed heq).trans ih
    · refine assertFailed_of_records heffects ih fun f hrecords => ?_
      by_contra hno
      obtain ⟨hf, hparent⟩ := not_or.1 hno
      exact hlevelled a ha n f ⟨hv, hrecords, hf, fun hn hlevel => hparent ⟨hn, hlevel⟩⟩

/-- A node that is skipped is not visited later, so its function is not recorded in this walk unless
another node of it has another value, or it is collected. -/
theorem skipped_notMem_related (hq : loop.Queues queued)
    (he : loop.Effects M pdg queued collects annotated) {n : N} {rest : List N} {f : F}
    (hw : x.state.workingList = n :: rest)
    (hv : (loop.marking pdg queued).visiting x.state.toQueue = none) (hdrop : loop.drop n = false)
    (hkeys : ∀ m, pdg.functionOf m = some f → loop.key m = loop.key n)
    (hcollects : ∀ m a, a ∈ collects m → pdg.kind a ≠ .formalArgument f)
    (hf : f ∉ x.state.partition.relatedFunctions)
    (hsteps : ReflTransGen (Traced.Step M pdg loop queued annotated) x z) :
    f ∉ z.state.partition.relatedFunctions := by
  obtain ⟨v, hmarked, hkey⟩ : ∃ v ∈ x.state.processedValues, loop.key n = some v :=
    (loop.marking pdg queued).exists_marked_of_visiting hw hv hdrop
  have hboth : v ∈ z.state.processedValues ∧ f ∉ z.state.partition.relatedFunctions := by
    induction hsteps with
    | refl => exact ⟨hmarked, hf⟩
    | @tail a b _ hst ih =>
      obtain ⟨hmem, hno⟩ := ih
      have hqueue : (loop.marking pdg queued).step a.state.toQueue = some b.state.toQueue := by
        rw [← traverseStep_toQueue M pdg loop annotated hq, hst.state]
        rfl
      refine ⟨(loop.marking pdg queued).marked_subset_of_step hqueue hmem, fun hrelated => ?_⟩
      obtain ⟨m, heffects, heq | hvisit⟩ := traverseStep_effects he hst.state
      · exact hno ((congrArg (f ∈ ·.relatedFunctions) heq).mp hrelated)
      · rcases records_of_effects heffects hrelated with hold | ⟨hm, -⟩ | ⟨-, a', ha', hk, -⟩
        · exact hno hold
        · exact (loop.marking pdg queued).notMem_marked_of_visiting hvisit
            ((hkeys m hm).trans hkey) hmem
        · exact hcollects m a' ha' hk
  exact hboth.2

end Obstructed

/-! ## Top theorem -/

section Top

variable [DecidableEq V] (M : Module F G V) (pdg : PDG F G V N)

/-- The state in which `traverseForward` enters its loop. -/
def forwardStart (n : N) (s : TraverseState F G V N) : TraverseState F G V N :=
  ((Traced.enter s).startForward pdg n).state

omit [DecidableEq F] [DecidableEq V] in
/-- The state in which `traverseBackward` enters its loop. -/
def backwardStart (u : TraverseState F G V N) : TraverseState F G V N :=
  (Traced.enter u).startBackward.state

/-- `PartitionForArguments::traverse` comes in the state `s` to an annotated argument of pointer type,
which has the formal argument node `n`. -/
def Enters (annot : Annotation F) (fuel : Nat) (s : TraverseState F G V N) (n : N) : Prop :=
  ∃ before arg after, annot.getAnnotatedArguments = before ++ arg :: after ∧
    PartitionForArguments.traverse M pdg { annot with getAnnotatedArguments := before } fuel =
      some s ∧
    PartitionForArguments.isPointerArg M annot arg = true ∧
    pdg.getFormalArgNode annot.getFunction arg = some n

/-- No walk of the analysis is obstructed that `canPartition` lets start. -/
structure AnalysisUnobstructed (annot : Annotation F) : Prop where
  forward : PartitionForArguments.canPartition M pdg annot = true →
    ∀ fuel s n, Enters M pdg annot fuel s n →
      WalkUnobstructed M pdg (forwardLoop M pdg annot.getFunction) (forwardQueued pdg)
        (forwardCollects pdg) annot.getFunction (forwardStart pdg n s)
  backward : PartitionForArguments.canPartition M pdg annot = true →
    ∀ fuel s n u, Enters M pdg annot fuel s n →
      traverseForward M pdg fuel annot.getFunction n s = some u →
      WalkUnobstructed M pdg (backwardLoop pdg) (backwardQueued pdg) backwardCollects
        annot.getFunction (backwardStart u)
  returnValue : PartitionForReturnValue.canPartition M pdg annot = true →
    WalkUnobstructed M pdg (returnLoop pdg) (backwardQueued pdg) backwardCollects annot.getFunction
      (Traced.startReturn M pdg annot).state

/-- Each walk of the analysis that ends has recorded what it reaches. -/
structure AnalysisComplete (annot : Annotation F) : Prop where
  forward : PartitionForArguments.canPartition M pdg annot = true →
    ∀ fuel s n t, Enters M pdg annot fuel s n →
      traverseForward M pdg fuel annot.getFunction n s = some t →
      Recorded M pdg annot.getFunction (Followed pdg (outNeighbours pdg) (· = n)) t
  backward : PartitionForArguments.canPartition M pdg annot = true →
    ∀ fuel s n u t, Enters M pdg annot fuel s n →
      traverseForward M pdg fuel annot.getFunction n s = some u →
      traverseBackward M pdg fuel annot.getFunction u = some t →
      Recorded M pdg annot.getFunction (Followed pdg (inNeighbours pdg) (· ∈ u.result)) t
  arguments : PartitionForArguments.canPartition M pdg annot = true →
    ∀ fuel t, PartitionForArguments.traverse M pdg annot fuel = some t →
      t.assertFailed = false
  returnValue : PartitionForReturnValue.canPartition M pdg annot = true →
    ∀ fuel t, PartitionForReturnValue.traverse M pdg annot fuel = some t →
      Recorded M pdg annot.getFunction
        (Followed pdg (inNeighbours pdg)
          (· ∈ PartitionForReturnValue.returnNodes M pdg annot.getFunction)) t

variable {M pdg}

omit [DecidableEq V] in
theorem drop_forwardLoop (hwt : pdg.WellTyped) (annotated : F) (n : N) :
    (forwardLoop M pdg annotated).drop n = !pdg.isLLVMNode n := by
  cases hn : pdg.isLLVMNode n with
  | false => simp [forwardLoop, hn]
  | true => simp [forwardLoop, hn, Option.isNone_eq_false_iff.2 (hwt.hasValue n hn)]

omit [DecidableEq V] in
theorem drop_backwardLoop (hwt : pdg.WellTyped) (n : N) :
    (backwardLoop (F := F) (G := G) pdg).drop n = !pdg.isLLVMNode n := by
  cases hn : pdg.isLLVMNode n with
  | false => simp [backwardLoop, hn]
  | true => simp [backwardLoop, hn, Option.isNone_eq_false_iff.2 (hwt.hasValue n hn)]

variable {annot : Annotation F} {fuel : Nat} {s u t : TraverseState F G V N} {n : N}

theorem recorded_forward (hwt : pdg.WellTyped)
    (hcan : PartitionForArguments.canPartition M pdg annot = true)
    (h : AnalysisUnobstructed M pdg annot) (hs : s.assertFailed = false)
    (henters : Enters M pdg annot fuel s n)
    (hrun : traverseForward M pdg fuel annot.getFunction n s = some t) :
    Recorded M pdg annot.getFunction (Followed pdg (outNeighbours pdg) (· = n)) t := by
  have hrecorded := walk_recorded hwt (queues_forwardLoop M pdg _) (queuesNeighbours_forward pdg)
    (effects_forwardLoop M pdg _) (drop_forwardLoop hwt _) (h.forward hcan fuel s n henters) hs hrun
  exact ⟨hrecorded.assertFailed,
    fun m f hm => hrecorded.related m f (hm.mono fun a ha => List.mem_singleton.2 ha)⟩

theorem recorded_backward (hwt : pdg.WellTyped)
    (hcan : PartitionForArguments.canPartition M pdg annot = true)
    (h : AnalysisUnobstructed M pdg annot) (hs : s.assertFailed = false)
    (henters : Enters M pdg annot fuel s n)
    (hforward : traverseForward M pdg fuel annot.getFunction n s = some u)
    (hrun : traverseBackward M pdg fuel annot.getFunction u = some t) :
    Recorded M pdg annot.getFunction (Followed pdg (inNeighbours pdg) (· ∈ u.result)) t :=
  walk_recorded hwt (queues_backwardLoop pdg) (queuesNeighbours_backward pdg)
    (effects_backwardLoop M pdg _) (drop_backwardLoop hwt)
    (h.backward hcan fuel s n u henters hforward)
    (recorded_forward hwt hcan h hs henters hforward).assertFailed hrun

/-- No assertion has failed when `traverse` has gone through some of the arguments. -/
theorem assertFailed_traverse (hwt : pdg.WellTyped)
    (hcan : PartitionForArguments.canPartition M pdg annot = true)
    (h : AnalysisUnobstructed M pdg annot) (before after : List Nat)
    (hargs : annot.getAnnotatedArguments = before ++ after)
    (hrun : PartitionForArguments.traverse M pdg { annot with getAnnotatedArguments := before } fuel =
      some t) : t.assertFailed = false := by
  induction before using List.reverseRecOn generalizing after t with
  | nil =>
    cases hrun
    rfl
  | append_singleton before arg ih =>
    unfold PartitionForArguments.traverse at hrun
    dsimp only at hrun
    rw [List.foldlM_append] at hrun
    obtain ⟨s, hbefore, hrun⟩ := Option.bind_eq_some_iff.1 hrun
    have hs : s.assertFailed = false :=
      ih (arg :: after) (by rw [hargs, List.append_assoc]; rfl) hbefore
    rw [List.foldlM_cons] at hrun
    obtain ⟨s', harg, hrun⟩ := Option.bind_eq_some_iff.1 hrun
    cases hrun
    split at harg
    · next hptr =>
      cases hn : pdg.getFormalArgNode annot.getFunction arg with
      | none =>
        simp only [traverseForArgument, hn] at harg
        cases harg
        exact hs
      | some n =>
        simp only [traverseForArgument, hn] at harg
        obtain ⟨u, hforward, hbackward⟩ := Option.bind_eq_some_iff.1 harg
        have henters : Enters M pdg annot fuel s n :=
          ⟨before, arg, after, by rw [hargs, List.append_assoc]; rfl, hbefore, hptr, hn⟩
        exact (recorded_backward hwt hcan h hs henters hforward hbackward).assertFailed
    · cases harg
      exact hs

theorem Enters.assertFailed (hwt : pdg.WellTyped)
    (hcan : PartitionForArguments.canPartition M pdg annot = true)
    (h : AnalysisUnobstructed M pdg annot) (henters : Enters M pdg annot fuel s n) :
    s.assertFailed = false := by
  obtain ⟨before, arg, after, hargs, hrun, -, -⟩ := henters
  exact assertFailed_traverse hwt hcan h before (arg :: after) hargs hrun

variable (M pdg)

/-- **Completeness of the sensitivity analysis.**  If none of its walks is obstructed, each one that
ends has recorded every defined function that it reaches, and no assertion has failed. -/
theorem analysisComplete (hwt : pdg.WellTyped) (annot : Annotation F)
    (h : AnalysisUnobstructed M pdg annot) : AnalysisComplete M pdg annot where
  forward hcan _ _ _ _ henters hrun :=
    recorded_forward hwt hcan h (henters.assertFailed hwt hcan h) henters hrun
  backward hcan _ _ _ _ _ henters hforward hrun :=
    recorded_backward hwt hcan h (henters.assertFailed hwt hcan h) henters hforward hrun
  arguments hcan _ _ hrun :=
    assertFailed_traverse hwt hcan h annot.getAnnotatedArguments [] (List.append_nil _).symm hrun
  returnValue hcan _ _ hrun :=
    walk_recorded hwt (queues_returnLoop pdg) (queuesNeighbours_backward pdg)
      (effects_returnLoop M pdg _) (fun _ => rfl) (h.returnValue hcan) rfl hrun

variable {M pdg}

/-- A walk of an annotated argument that ends leaves levels for the related functions. -/
theorem relatedLevelled_of_run {loop : TraverseLoop F G V N} {queued collects : N → List N}
    {annotated : F} (he : loop.Effects M pdg queued collects annotated)
    (hrun : whileSome (traverseStep M pdg loop annotated) fuel s = some t) (hs : s.RelatedLevelled) :
    t.RelatedLevelled := by
  obtain ⟨z, rfl, -, hz⟩ := steps_of_whileSome queued (.enter s) hrun
  exact relatedLevelled_of_steps he hz hs

omit [DecidableEq V] in
theorem relatedLevelled_forwardStart (hs : s.RelatedLevelled) :
    (forwardStart pdg n s).RelatedLevelled := by
  intro f hf
  unfold forwardStart Traced.startForward
  dsimp only
  split
  · exact mem_insertNew.2 (.inr (hs f hf))
  · exact hs f hf

theorem relatedLevelled_traverse
    (hrun : PartitionForArguments.traverse M pdg annot fuel = some t) : t.RelatedLevelled := by
  unfold PartitionForArguments.traverse at hrun
  refine foldlM_induct (P := TraverseState.RelatedLevelled) (fun s arg s' _ hs harg => ?_)
    (fun f hf => (Finmap.notMem_empty hf).elim) hrun
  split at harg
  · unfold traverseForArgument at harg
    split at harg
    · cases harg
      exact hs
    · next n _ =>
      obtain ⟨u, hforward, hbackward⟩ := Option.bind_eq_some_iff.1 harg
      have hu : u.RelatedLevelled := relatedLevelled_of_run (effects_forwardLoop M pdg _) hforward
        (relatedLevelled_forwardStart (n := n) hs)
      exact relatedLevelled_of_run (effects_backwardLoop M pdg _) hbackward hu
  · cases harg
    exact hs

variable (M pdg)

/-- **What completeness takes.**  In no walk of a complete analysis that ends, a function is
recorded without a level. -/
theorem walksLevelled_of_analysisComplete (h : AnalysisComplete M pdg annot) :
    (PartitionForArguments.canPartition M pdg annot = true → ∀ fuel s n u,
      Enters M pdg annot fuel s n → traverseForward M pdg fuel annot.getFunction n s = some u →
      WalkLevelled M pdg (forwardLoop M pdg annot.getFunction) (forwardQueued pdg)
          (forwardCollects pdg) annot.getFunction (forwardStart pdg n s) ∧
        ∀ t, traverseBackward M pdg fuel annot.getFunction u = some t →
          WalkLevelled M pdg (backwardLoop pdg) (backwardQueued pdg) backwardCollects
            annot.getFunction (backwardStart u)) ∧
    (PartitionForReturnValue.canPartition M pdg annot = true → ∀ fuel t,
      PartitionForReturnValue.traverse M pdg annot fuel = some t →
      WalkLevelled M pdg (returnLoop pdg) (backwardQueued pdg) backwardCollects annot.getFunction
        (Traced.startReturn M pdg annot).state) := by
  constructor
  · intro hcan fuel s n u henters hforward
    have hs : s.RelatedLevelled := by
      obtain ⟨before, arg, after, -, hrun, -, -⟩ := henters
      exact relatedLevelled_traverse hrun
    have hstart : (forwardStart pdg n s).RelatedLevelled := relatedLevelled_forwardStart hs
    have hu := relatedLevelled_of_run (effects_forwardLoop M pdg _) hforward hstart
    refine ⟨?_, fun t hbackward => ?_⟩
    · exact walkLevelled_of_assertFailed (effects_forwardLoop M pdg _) hstart hforward
        (h.forward hcan fuel s n u henters hforward).assertFailed
    · exact walkLevelled_of_assertFailed (effects_backwardLoop M pdg _) hu hbackward
        (h.backward hcan fuel s n u t henters hforward hbackward).assertFailed
  · intro hcan fuel t hrun
    exact walkLevelled_of_assertFailed (effects_returnLoop M pdg _)
      (fun f hf => (Finmap.notMem_empty hf).elim) hrun (h.returnValue hcan fuel t hrun).assertFailed

end Top

omit [DecidableEq F]

/-- Functions `f` (`0`), `h`, `k`, `j`.  The annotated `f` takes a pointer and returns a value. -/
def obstructedModule : Module (Fin 4) Empty (Fin 8) where
  functions := [0, 1, 2, 3]
  globals := []
  getName f := ["f", "h", "k", "j"].getD f ""
  isDeclaration _ := false
  isIntrinsic _ := false
  argTypes f := if f = 0 then [.pointer] else []
  getReturnType _ := .integer 32
  functionSize _ := 1
  returnInsts f := if f = 0 then [4] else []
  valueClass _ := .other

/-- The formal argument `0` of `f` flows into a global variable (`1`), which a call of `k` (`3`) in
`h` uses (`2`).  The return instruction `4` of `f` uses the actual argument `5` and the call `6` of
`j` (`7`), both of which carry the value of the call. -/
def obstructedPDG : PDG (Fin 4) Empty (Fin 8) (Fin 8) where
  kind n := [.formalArgument 0, .globalVariable, .instruction 1, .function 2, .instruction 0,
    .actualArgument 0, .instruction 0, .function 3].getD n .other
  isLLVMNode _ := true
  getNodeValue n := some (if n = 5 then 6 else n)
  getParent n := [some 0, none, some 1, some 2, some 0, some 0, some 0, some 3].getD n none
  isPointerArgOperand _ := true
  outEdges n := if n < 3 then
    [{ getSource := n, getDestination := n + 1, isControlEdge := false }] else []
  inEdges n :=
    if n = 4 then [{ getSource := 5, getDestination := 4, isControlEdge := false },
      { getSource := 6, getDestination := 4, isControlEdge := false }]
    else if n = 6 then [{ getSource := 7, getDestination := 6, isControlEdge := true }]
    else []
  hasFunctionPDG _ := true
  getCallSites _ := []
  llvmNodes _ := []
  getNode _ v := some v
  getFormalArgNode f arg := if f = 0 ∧ arg = 0 then some 0 else none
  getGlobalVariableNode g := g.elim

def obstructedAnnotation : Annotation (Fin 4) where
  getAnnotation := "secure"
  getFunction := 0
  getAnnotatedArguments := [0]
  isReturnAnnotated := true

/-- `k` is reached over the global variable, has no level and the assertion fails.  `j` is reached
from the return instruction, but the walk skips the call because the actual argument has been
entered under the same value. -/
theorem globalUser_not_recorded :
    obstructedPDG.WellTyped ∧
    PartitionForArguments.canPartition obstructedModule obstructedPDG obstructedAnnotation = true ∧
    (PartitionForArguments.traverse obstructedModule obstructedPDG obstructedAnnotation 10).map
      (·.assertFailed) = some true ∧
    PartitionForReturnValue.canPartition obstructedModule obstructedPDG
      obstructedAnnotation = true ∧
    Followed obstructedPDG (inNeighbours obstructedPDG)
      (· ∈ PartitionForReturnValue.returnNodes obstructedModule obstructedPDG 0) 7 ∧
    (PartitionForReturnValue.traverse obstructedModule obstructedPDG obstructedAnnotation 10).map
      (fun t => decide (3 ∈ t.partition.relatedFunctions)) = some false := by
  refine ⟨⟨by decide, by decide, by decide⟩, by decide, by decide, by decide, ?_, by decide⟩
  refine .next (n := 6) (.next (n := 4) (.start ?_) rfl rfl ?_ rfl) rfl rfl ?_ rfl <;> decide

/-- The module when the instruction `1` of `f` stores the function `k` (`3`). -/
def unobstructedModule : Module (Fin 4) Empty (Fin 8) :=
  { obstructedModule with valueClass := fun v => if v = 1 then .storeInst 3 0 else .other }

/-- The same graph with a store of `f` in the place of the global, and a value of its own for the
actual argument.  The node of what is stored is the one of `k`. -/
def unobstructedPDG : PDG (Fin 4) Empty (Fin 8) (Fin 8) :=
  { obstructedPDG with
    kind := fun n => if n = 1 then .instruction 0 else obstructedPDG.kind n
    getNodeValue := fun n => some n
    getParent := fun n => if n = 1 then some 0 else obstructedPDG.getParent n }

/-- The state in which the analysis of `f` starts. -/
def unobstructedStart : TraverseState (Fin 4) Empty (Fin 8) (Fin 8) where
  partition := ({} : Partition (Fin 4) Empty).addToPartition 0

theorem unobstructed_enters {fuel : Nat} {s : TraverseState (Fin 4) Empty (Fin 8) (Fin 8)} {n : Fin 8}
    (h : Enters unobstructedModule unobstructedPDG obstructedAnnotation fuel s n) :
    s = unobstructedStart ∧ n = 0 := by
  obtain ⟨before, arg, after, hargs, hrun, -, hn⟩ := h
  cases before with
  | nil =>
    obtain ⟨rfl, -⟩ := List.cons.inj hargs
    cases hrun
    cases hn
    exact ⟨rfl, rfl⟩
  | cons _ before => cases before <;> cases hargs

theorem unobstructed_free :
    AnalysisUnobstructed unobstructedModule unobstructedPDG obstructedAnnotation where
  forward := by
    intro _ fuel s n henters
    obtain ⟨rfl, rfl⟩ := unobstructed_enters henters
    exact walkUnobstructed_of_alongRun 10 (by decide)
  backward := by
    intro _ fuel s n u henters hu
    obtain ⟨rfl, rfl⟩ := unobstructed_enters henters
    have hall : (traverseForward unobstructedModule unobstructedPDG 10 0 0 unobstructedStart).any
        (fun u => alongRun (traverseStep unobstructedModule unobstructedPDG
          (backwardLoop unobstructedPDG) 0) (visitsFreely unobstructedModule unobstructedPDG
          (backwardLoop unobstructedPDG) (backwardQueued unobstructedPDG) backwardCollects) 10
          (backwardStart u)) = true := by
      decide
    obtain ⟨u', hu', hfree⟩ := (Option.any_eq_true _ _).1 hall
    cases whileSome_unique hu hu'
    exact walkUnobstructed_of_alongRun 10 hfree
  returnValue _ := walkUnobstructed_of_alongRun 10 (by decide)

/-- The forward walk relates `k`, from which the backward walk starts. -/
theorem unobstructed_complete :
    (∃ u t, traverseForward unobstructedModule unobstructedPDG 10 0 0 unobstructedStart = some u ∧
      u.result = [3] ∧ traverseBackward unobstructedModule unobstructedPDG 10 0 u = some t) ∧
    AnalysisComplete unobstructedModule unobstructedPDG obstructedAnnotation := by
  constructor
  · have hresult : (traverseForward unobstructedModule unobstructedPDG 10 0 0 unobstructedStart).any
        (fun u => decide (u.result = [3]) &&
          (traverseBackward unobstructedModule unobstructedPDG 10 0 u).isSome) = true := by
      decide
    obtain ⟨u, hu, hboth⟩ := (Option.any_eq_true _ _).1 hresult
    obtain ⟨hlist, ht⟩ := Bool.and_eq_true_iff.1 hboth
    obtain ⟨t, ht⟩ := Option.isSome_iff_exists.1 ht
    exact ⟨u, t, hu, of_decide_eq_true hlist, ht⟩
  · exact analysisComplete unobstructedModule unobstructedPDG ⟨by decide, by decide, by decide⟩
      obstructedAnnotation unobstructed_free

end Vazgen
