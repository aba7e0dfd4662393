import Vazgen.Analysis.AnalysisRun

/-!
# The levels of the related functions

The edges that the walks follow make a graph on the functions (`FunctionStep`).  After any number
of iterations every level is the length of a walk in that graph from the annotated function
(`relatedFunctions_sound`).
-/

namespace Vazgen

open Worklist MinMap Relation Distance

variable {F G V N : Type} [DecidableEq F]

/-- A step from a function to another one along an edge between their nodes. -/
def FunctionStep (pdg : PDG F G V N) (edge : N → N → Prop) (p q : F) : Prop :=
  ∃ n m, edge n m ∧ pdg.getParent n = some p ∧ pdg.getParent m = some q ∧ p ≠ q

omit [DecidableEq F] in
theorem FunctionStep.mono {pdg : PDG F G V N} {edge edge' : N → N → Prop}
    (h : ∀ n m, edge n m → edge' n m) {p q : F} (hs : FunctionStep pdg edge p q) :
    FunctionStep pdg edge' p q := by
  obtain ⟨n, m, he, hp, hq, hne⟩ := hs
  exact ⟨n, m, h n m he, hp, hq, hne⟩

/-- The formal argument node of a function is one of its nodes. -/
structure PDG.FormalArgsTyped (pdg : PDG F G V N) : Prop where
  kind : ∀ f arg n, pdg.getFormalArgNode f arg = some n → pdg.kind n = .formalArgument f
  getParent : ∀ n f, pdg.kind n = .formalArgument f → pdg.getParent n = some f

/-- The formal argument nodes collected are nodes of their functions. -/
def CollectsOwnNodes (pdg : PDG F G V N) (collects : N → List N) : Prop :=
  ∀ n m f, m ∈ collects n → pdg.kind m = .formalArgument f → pdg.getParent m = some f

omit [DecidableEq F] in
theorem PDG.FormalArgsTyped.collectsOwnNodes {pdg : PDG F G V N} (h : pdg.FormalArgsTyped)
    (collects : N → List N) : CollectsOwnNodes pdg collects :=
  fun _ m f _ hk => h.getParent m f hk

omit [DecidableEq F] in
theorem collectsOwnNodes_backward (pdg : PDG F G V N) : CollectsOwnNodes pdg backwardCollects :=
  fun _ _ _ hm => (List.not_mem_nil hm).elim

/-- `n` is a node of the function itself, or of one of its formal arguments. -/
def PDG.FunctionAt (pdg : PDG F G V N) (n : N) (f : F) : Prop :=
  pdg.functionOf n = some f ∨ pdg.kind n = .formalArgument f

/-! ## Soundness -/

/-- A defined function of a node that has been reached, at the length of a walk to it. -/
structure SoundlyRelated (M : Module F G V) (pdg : PDG F G V N) (annotated : F)
    (x : Traced F G V N) (f : F) (l : Int) : Prop where
  isDeclaration : M.isDeclaration f = false
  reached : ∃ n, x.Reached n ∧ pdg.FunctionAt n f
  walk : ∃ k : Nat, l = k ∧ Walk (FunctionStep pdg x.followed) annotated k f

/-- Every function recorded so far is soundly related, and not closer than it is. -/
def Traced.RelatedSound (M : Module F G V) (pdg : PDG F G V N) (annotated : F)
    (x : Traced F G V N) : Prop :=
  ∀ f l, x.state.partition.relatedFunctions.lookup f = some l →
    SoundlyRelated M pdg annotated x f l ∧
      ∀ d, IsLeast { k | Walk (FunctionStep pdg x.followed) annotated k f } d → (d : Int) ≤ l

/-- The levels found are lengths of walks, and the functions found are soundly related, at levels
that have become no higher since. -/
structure Findings.Sound (M : Module F G V) (pdg : PDG F G V N) (annotated : F)
    (x : Traced F G V N) (a : Findings F) : Prop where
  levels : Distance.Sound (FunctionStep pdg x.followed) annotated a.functionLevels.lookup
  related : ∀ f l, a.relatedFunctions.lookup f = some l → SoundlyRelated M pdg annotated x f l
  current : ∀ f l, a.relatedFunctions.lookup f = some l →
    ∃ c ≤ l, a.functionLevels.lookup f = some c

/-- What every iteration keeps. -/
structure Traced.Sound (M : Module F G V) (pdg : PDG F G V N) (annotated : F)
    (x : Traced F G V N) : Prop where
  findings : x.state.findings.Sound M pdg annotated x
  pending : ∀ n ∈ x.state.workingList, x.Reached n

/-- Passing a level on along a step keeps the levels sound. -/
theorem sound_updateFunctionLevel {r : F → F → Prop} {a : F} {levels : Finmap fun _ : F => Int}
    (h : Distance.Sound r a levels.lookup) {currentF newF : Option F}
    (hr : ∀ p q, currentF = some p → newF = some q → p ≠ q → r p q) :
    Distance.Sound r a (updateFunctionLevel currentF newF levels).lookup := by
  rcases updateFunctionLevel_cases currentF newF levels with e | ⟨p, q, l, hp, hq, hne, hl, e⟩
  · rw [e]
    exact h
  · rw [e]
    obtain ⟨k, rfl, hk⟩ := h p l hl
    have hwalk : Walk r a (k + 1) q := hk.snoc (hr p q hp hq hne.symm)
    intro f c hc
    dsimp only at hc
    by_cases hf : f = q
    · subst hf
      rw [lookup_insertMin_self] at hc
      cases hold : levels.lookup f with
      | none =>
        rw [hold] at hc
        cases hc
        exact ⟨k + 1, rfl, hwalk⟩
      | some d =>
        rw [hold] at hc
        cases hc
        change ∃ j : Nat, min ((k : Int) + 1) d = j ∧ Walk r a j f
        rcases min_choice ((k : Int) + 1) d with hmin | hmin
        · exact ⟨k + 1, hmin, hwalk⟩
        · rw [hmin]
          exact h f d hold
    · rw [lookup_insertMin_of_ne hf] at hc
      exact h f c hc

omit [DecidableEq F] in
theorem SoundlyRelated.mono {M : Module F G V} {pdg : PDG F G V N} {annotated : F}
    {x y : Traced F G V N} (hs : ∀ n ∈ x.starts, n ∈ y.starts)
    (hf : ∀ n m, x.followed n m → y.followed n m) {f : F} {l : Int}
    (h : SoundlyRelated M pdg annotated x f l) : SoundlyRelated M pdg annotated y f l where
  isDeclaration := h.isDeclaration
  reached := by
    obtain ⟨n, hn, hat⟩ := h.reached
    exact ⟨n, hn.mono hs hf, hat⟩
  walk := by
    obtain ⟨k, hk, hw⟩ := h.walk
    exact ⟨k, hk, hw.mono fun _ _ => FunctionStep.mono hf⟩

section Soundness

variable {M : Module F G V} {pdg : PDG F G V N} {annotated : F}

theorem Findings.Sound.mono {x y : Traced F G V N} {a : Findings F}
    (hs : ∀ n ∈ x.starts, n ∈ y.starts) (hf : ∀ n m, x.followed n m → y.followed n m)
    (h : a.Sound M pdg annotated x) : a.Sound M pdg annotated y where
  levels := h.levels.mono fun _ _ => FunctionStep.mono hf
  related f l hl := (h.related f l hl).mono hs hf
  current := h.current

theorem exists_level_of_below {levels levels' : Finmap fun _ : F => Int} (h : Below levels levels')
    {f : F} {l : Int} (hf : ∃ c ≤ l, levels.lookup f = some c) :
    ∃ c ≤ l, levels'.lookup f = some c := by
  obtain ⟨c, hcl, hc⟩ := hf
  obtain ⟨c', hc', hlow⟩ := h f c hc
  exact ⟨c', hc'.trans hcl, hlow⟩

/-- An effect of the visit of a reached node, whose edges have been followed, keeps soundness. -/
theorem Findings.Sound.effect {queued collects : N → List N}
    (hc : CollectsOwnNodes pdg collects) (hsub : ∀ n, ∀ m ∈ collects n, m ∈ queued n)
    {y : Traced F G V N} {n : N} (hn : y.Reached n)
    (hfollowed : ∀ m ∈ queued n, pdg.functionOf n = none → y.followed n m) {a b : Findings F}
    (ha : a.Sound M pdg annotated y) (h : Effect M pdg queued collects annotated n a b) :
    b.Sound M pdg annotated y := by
  cases h with
  | @pass m hf hm =>
    refine ⟨sound_updateFunctionLevel ha.levels fun p q hp hq hne => ?_, ha.related,
      fun f l hl => ?_⟩
    · exact ⟨n, m, hfollowed m hm hf, hp, hq, hne⟩
    · exact exists_level_of_below (below_updateFunctionLevel _ _ _) (ha.current f l hl)
  | @formalArgument m f hf hm hk hd =>
    have hm' : y.followed n m := hfollowed m (hsub n m hm) hf
    have hpass : Distance.Sound (FunctionStep pdg y.followed) annotated
        (a.pass (pdg.getParent n) (some f)).functionLevels.lookup :=
      sound_updateFunctionLevel ha.levels fun p q hp hq hne => by
        cases hq
        exact ⟨n, m, hm', hp, hc n m f hm hk, hne⟩
    refine ⟨by rwa [Findings.record_functionLevels], fun g l hl => ?_, fun g l hl => ?_⟩
    · rcases Findings.lookup_record hl with hold | ⟨rfl, hnew⟩
      · exact ha.related g l hold
      · exact ⟨hd, ⟨m, hn.follow hm', .inr hk⟩, hpass g l hnew⟩
    · rw [Findings.record_functionLevels]
      rcases Findings.lookup_record hl with hold | ⟨rfl, hnew⟩
      · exact exists_level_of_below (below_updateFunctionLevel _ _ _) (ha.current g l hold)
      · exact ⟨l, le_rfl, hnew⟩
  | @function f hf hr =>
    refine ⟨by rw [Findings.record_functionLevels]; exact ha.levels, fun g l hl => ?_,
      fun g l hl => ?_⟩
    · rcases Findings.lookup_record hl with hold | ⟨rfl, hnew⟩
      · exact ha.related g l hold
      · exact ⟨hr.1, ⟨n, hn, .inl hf⟩, ha.levels g l hnew⟩
    · rw [Findings.record_functionLevels]
      rcases Findings.lookup_record hl with hold | ⟨rfl, hnew⟩
      · exact ha.current g l hold
      · exact ⟨l, le_rfl, hnew⟩

theorem Findings.Sound.effects {queued collects : N → List N}
    (hc : CollectsOwnNodes pdg collects) (hsub : ∀ n, ∀ m ∈ collects n, m ∈ queued n)
    {y : Traced F G V N} {n : N} (hn : y.Reached n)
    (hfollowed : ∀ m ∈ queued n, pdg.functionOf n = none → y.followed n m) {a b : Findings F}
    (ha : a.Sound M pdg annotated y)
    (h : ReflTransGen (Effect M pdg queued collects annotated n) a b) :
    b.Sound M pdg annotated y := by
  induction h with
  | refl => exact ha
  | tail _ heffect ih => exact ih.effect hc hsub hn hfollowed heffect

theorem lookup_startForward {n : N} (hn : pdg.getParent n = some annotated) (x : Traced F G V N) :
    (x.startForward pdg n).state.functionLevels = insertNew annotated 0 x.state.functionLevels := by
  simp only [Traced.startForward, hn]

/-- Starting the forward walk of an annotated argument keeps soundness: the annotated function is
at distance `0` from itself. -/
theorem Traced.Sound.startForward {n : N} (hn : pdg.getParent n = some annotated)
    {x : Traced F G V N} (h : x.Sound M pdg annotated) :
    (x.startForward pdg n).Sound M pdg annotated := by
  refine ⟨⟨?_, ?_, ?_⟩, fun m hm => ?_⟩
  · show Distance.Sound (FunctionStep pdg x.followed) annotated
      (x.startForward pdg n).state.functionLevels.lookup
    rw [lookup_startForward hn]
    unfold insertNew
    split
    · exact h.findings.levels
    · intro f l hl
      dsimp only at hl
      by_cases hf : f = annotated
      · subst hf
        rw [Finmap.lookup_insert] at hl
        cases hl
        exact ⟨0, rfl, .nil⟩
      · rw [Finmap.lookup_insert_of_ne _ hf] at hl
        exact h.findings.levels f l hl
  · intro f l hl
    exact (h.findings.related f l hl).mono (y := x.startForward pdg n)
      (fun a ha => Set.mem_insert_of_mem n ha) fun _ _ => id
  · intro f l hl
    rw [show (x.startForward pdg n).state.findings.functionLevels = _ from lookup_startForward hn x]
    exact exists_level_of_below (below_insertNew annotated 0 _) (h.findings.current f l hl)
  · cases List.mem_singleton.1 hm
    exact ⟨n, Set.mem_insert n x.starts, .refl⟩

theorem Traced.Sound.startBackward {x : Traced F G V N} (h : x.Sound M pdg annotated) :
    x.startBackward.Sound M pdg annotated where
  findings := h.findings.mono (y := x.startBackward) (fun _ ha => .inl ha) fun _ _ => id
  pending m hm := ⟨m, .inr hm, .refl⟩

variable [DecidableEq V] {loop : TraverseLoop F G V N} {queued collects : N → List N}

/-- **Step lemma.**  An iteration of a loop keeps soundness. -/
theorem Traced.Sound.step (hc : CollectsOwnNodes pdg collects) (hq : loop.Queues queued)
    (he : loop.Effects M pdg queued collects annotated) {x y : Traced F G V N}
    (h : x.Sound M pdg annotated) (hst : x.Step M pdg loop queued annotated y) :
    y.Sound M pdg annotated := by
  have hfindings : x.state.findings.Sound M pdg annotated y :=
    h.findings.mono (fun a ha => by rw [hst.starts]; exact ha) fun _ _ => hst.followed_of_followed
  obtain ⟨n, rest, hw, ⟨-, hy, -⟩ | ⟨⟨pv, hy⟩, -, hf⟩⟩ := hst.cases
  · refine ⟨by rw [hy]; exact hfindings, fun m hm => hst.reached (h.pending m ?_)⟩
    rw [hy] at hm
    rw [hw]
    exact List.mem_cons_of_mem n hm
  · have hn : y.Reached n := hst.reached (h.pending n (by rw [hw]; exact List.mem_cons_self))
    have hfollowed : ∀ m ∈ queued n, pdg.functionOf n = none → y.followed n m :=
      fun m hm hnf => (hf n m).2 (.inr ⟨rfl, hnf, hm⟩)
    constructor
    · have heffects := visitNode_effects he n { x.state with
        workingList := rest, processedValues := pv }
      rw [← hy] at heffects
      exact hfindings.effects hc he.collects_subset hn hfollowed heffects
    · intro m hm
      rw [hy, workingList_visitNode M pdg loop annotated hq] at hm
      rcases List.mem_append.1 hm with hm | hm
      · exact hst.reached (h.pending m (by rw [hw]; exact List.mem_cons_of_mem n hm))
      · refine hn.follow ?_
        unfold TraverseLoop.marking at hm
        cases hnf : pdg.functionOf n with
        | none => exact hfollowed m (by simpa [hnf] using hm) hnf
        | some f => simp [hnf] at hm

end Soundness

section Runs

variable [DecidableEq V] {M : Module F G V} {pdg : PDG F G V N} {annot : Annotation F}

theorem sound_argumentStep (hpdg : pdg.FormalArgsTyped) {a b : ArgumentState F G V N}
    (h : a.traced.Sound M pdg annot.getFunction) (hst : ArgumentStep M pdg annot a b) :
    b.traced.Sound M pdg annot.getFunction := by
  cases hst with
  | skip _ => exact h
  | startForward _ hn => exact h.startForward (hpdg.getParent _ _ (hpdg.kind _ _ _ hn))
  | forward hst =>
    exact h.step (hpdg.collectsOwnNodes _) (queues_forwardLoop M pdg _) (effects_forwardLoop M pdg _) hst
  | startBackward _ => exact h.startBackward
  | backward hst =>
    exact h.step (collectsOwnNodes_backward pdg) (queues_backwardLoop pdg)
      (effects_backwardLoop M pdg _) hst
  | next _ => exact h

/-- **Run lemma.** -/
theorem sound_of_argumentSteps (hpdg : pdg.FormalArgsTyped) {a : ArgumentState F G V N}
    (h : ReflTransGen (ArgumentStep M pdg annot) (.start annot) a) :
    a.traced.Sound M pdg annot.getFunction := by
  induction h with
  | refl =>
    refine ⟨⟨fun f l hl => ?_, fun f l hl => ?_, fun f l hl => ?_⟩,
      fun n hn => (List.not_mem_nil hn).elim⟩
    · exact (nomatch hl)
    · exact (nomatch hl)
    · exact (nomatch hl)
  | tail _ hst ih => exact sound_argumentStep hpdg ih hst

omit [DecidableEq V] in
theorem sound_startReturn :
    (Traced.startReturn M pdg annot).Sound M pdg annot.getFunction := by
  refine ⟨⟨fun f l hl => ?_, fun f l hl => (nomatch hl), fun f l hl => (nomatch hl)⟩,
    fun n hn => ⟨n, hn, .refl⟩⟩
  have hl' : (insertNew annot.getFunction 0 ∅ : Finmap fun _ : F => Int).lookup f = some l := hl
  have hf : f = annot.getFunction := by
    have hmem := mem_insertNew.1 (Finmap.mem_of_lookup_eq_some hl')
    exact hmem.resolve_right (Finmap.notMem_empty)
  subst hf
  rw [lookup_insertNew_of_notMem Finmap.notMem_empty] at hl'
  cases hl'
  exact ⟨0, rfl, .nil⟩

theorem sound_of_returnSteps {x : Traced F G V N}
    (h : ReflTransGen (ReturnStep M pdg annot) (.startReturn M pdg annot) x) :
    x.Sound M pdg annot.getFunction := by
  induction h with
  | refl => exact sound_startReturn
  | tail _ hst ih =>
    exact ih.step (collectsOwnNodes_backward pdg) (queues_returnLoop pdg)
      (effects_returnLoop M pdg _) hst

omit [DecidableEq V] in
theorem Traced.Sound.relatedSound {annotated : F} {x : Traced F G V N}
    (h : x.Sound M pdg annotated) : x.RelatedSound M pdg annotated := by
  intro f l hl
  have hf := h.findings.related f l hl
  refine ⟨hf, fun d hd => ?_⟩
  obtain ⟨k, rfl, hk⟩ := hf.walk
  exact_mod_cast hd.2 hk

/-- **Soundness of the sensitivity analysis.**  After any number of iterations, every related
function is defined, it is the function of a node reached, and its level is the length of a walk to
it along followed edges. -/
theorem relatedFunctions_sound (hpdg : pdg.FormalArgsTyped) :
    (∀ a, ReflTransGen (ArgumentStep M pdg annot) (.start annot) a →
      a.traced.RelatedSound M pdg annot.getFunction) ∧
    ∀ x, ReflTransGen (ReturnStep M pdg annot) (.startReturn M pdg annot) x →
      x.RelatedSound M pdg annot.getFunction :=
  ⟨fun _ h => (sound_of_argumentSteps hpdg h).relatedSound,
    fun _ h => (sound_of_returnSteps h).relatedSound⟩

end Runs

inductive LateFunction where
  | work
  | log
  | flush
deriving DecidableEq

inductive LateNode where
  | arg
  | pass
  | param
  | use
  | load
  | add
  | mul
  | cmp
  | callee
deriving DecidableEq

/-- The module of `void work(int* p)`, which calls `log(p)`, computes with `*p` and calls `flush()`
depending on the result; `log` calls `flush()` too. -/
def lateModule : Module LateFunction Empty LateNode where
  functions := [.work, .log, .flush]
  globals := []
  getName
    | .work => "work"
    | .log => "log"
    | .flush => "flush"
  isDeclaration _ := false
  isIntrinsic _ := false
  argTypes
    | .flush => []
    | _ => [.pointer]
  getReturnType _ := .void
  functionSize _ := 1
  returnInsts _ := []
  valueClass _ := .other

/-- Through `log` it is four edges from the argument to `flush`, within `work` five. -/
def lateEdges : List (PDGEdge LateNode) :=
  [(.arg, .pass), (.pass, .param), (.param, .use), (.use, .callee), (.arg, .load), (.load, .add),
    (.add, .mul), (.mul, .cmp), (.cmp, .callee)].map
    fun e => { getSource := e.1, getDestination := e.2, isControlEdge := false }

def latePDG : PDG LateFunction Empty LateNode LateNode where
  kind
    | .arg => .formalArgument .work
    | .pass => .actualArgument .work
    | .param => .formalArgument .log
    | .use => .instruction .log
    | .callee => .function .flush
    | _ => .instruction .work
  isLLVMNode _ := true
  getNodeValue n := some n
  getParent
    | .param | .use => some .log
    | .callee => some .flush
    | _ => some .work
  isPointerArgOperand _ := true
  outEdges n := lateEdges.filter (·.getSource = n)
  inEdges n := lateEdges.filter (·.getDestination = n)
  hasFunctionPDG _ := true
  getCallSites _ := []
  llvmNodes _ := []
  getNode _ v := some v
  getFormalArgNode
    | .work, 0 => some .arg
    | .log, 0 => some .param
    | _, _ => none
  getGlobalVariableNode g := g.elim

def lateAnnotation : Annotation LateFunction where
  getAnnotation := "secure"
  getFunction := .work
  getAnnotatedArguments := [0]

theorem latePDG_formalArgsTyped : latePDG.FormalArgsTyped where
  kind f arg n hn := by
    unfold latePDG at hn ⊢
    dsimp only at hn ⊢
    split at hn
    · cases hn
      rfl
    · cases hn
      rfl
    · cases hn
  getParent n f hk := by
    cases n <;> cases hk <;> rfl

/-- `flush` is recorded at the length of the walk through `log`. -/
theorem late_relatedFunctions_sound :
    ∃ x : Traced LateFunction Empty LateNode LateNode,
      PartitionForArguments.traverse lateModule latePDG lateAnnotation 20 = some x.state ∧
      x.state.partition.relatedFunctions.lookup .flush = some 2 ∧
      x.RelatedSound lateModule latePDG .work := by
  have hlevel : (PartitionForArguments.traverse lateModule latePDG lateAnnotation 20).map
      (·.partition.relatedFunctions.lookup .flush) = some (some 2) := by decide
  obtain ⟨t, ht, hlookup⟩ := Option.map_eq_some_iff.1 hlevel
  obtain ⟨x, rfl, hrun⟩ := run_of_traverse ht
  exact ⟨x, ht, hlookup, (relatedFunctions_sound latePDG_formalArgsTyped).1 _ hrun⟩

end Vazgen
