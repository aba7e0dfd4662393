import Vazgen.Analysis.Levels

/-!
# Runs of the sensitivity analysis

The walks of an annotation as a transition system whose states can be looked at after any number of
iterations, whether or not a loop ends.  A state carries a record of its past (`Traced`): the start
nodes and the edges that the walks have followed.  A traversal that ends is a run
(`run_of_traverse`).
-/

namespace Vazgen

open Worklist Relation

variable {F G V N : Type}

/-! ## States with their past -/

/-- The state of a walk, and its past, which no iteration reads: the nodes that walks have started
from and the edges that they have followed. -/
structure Traced (F G V N : Type) where
  state : TraverseState F G V N
  starts : Set N := ∅
  followed : N → N → Prop := fun _ _ => False

/-- A node reached from the start nodes along followed edges. -/
def Traced.Reached (x : Traced F G V N) (n : N) : Prop :=
  ∃ a ∈ x.starts, ReflTransGen x.followed a n

theorem Traced.Reached.mono {x y : Traced F G V N} (hs : ∀ n ∈ x.starts, n ∈ y.starts)
    (hf : ∀ n m, x.followed n m → y.followed n m) {n : N} (h : x.Reached n) : y.Reached n := by
  obtain ⟨a, ha, hn⟩ := h
  exact ⟨a, hs a ha, ReflTransGen.mono hf _ _ hn⟩

theorem Traced.Reached.follow {x : Traced F G V N} {n m : N} (h : x.Reached n)
    (hm : x.followed n m) : x.Reached m := by
  obtain ⟨a, ha, hn⟩ := h
  exact ⟨a, ha, hn.tail hm⟩

section Step

variable [DecidableEq F] [DecidableEq V] (M : Module F G V) (pdg : PDG F G V N)

/-- One iteration of a loop; the visit of a node follows the edges to the nodes that it queues. -/
structure Traced.Step (loop : TraverseLoop F G V N) (queued : N → List N) (annotated : F)
    (x y : Traced F G V N) : Prop where
  state : traverseStep M pdg loop annotated x.state = some y.state
  starts : y.starts = x.starts
  followed : y.followed = (loop.marking pdg queued).follow x.state.toQueue x.followed

variable {M pdg} {loop : TraverseLoop F G V N} {queued : N → List N} {annotated : F}
  {x y : Traced F G V N}

theorem Traced.Step.followed_of_followed (h : x.Step M pdg loop queued annotated y) {n m : N}
    (hm : x.followed n m) : y.followed n m := by
  rw [h.followed]
  exact .inl hm

theorem Traced.Step.reached (h : x.Step M pdg loop queued annotated y) {n : N}
    (hn : x.Reached n) : y.Reached n :=
  hn.mono (fun a ha => by rw [h.starts]; exact ha) (fun _ _ hm => h.followed_of_followed hm)

/-- What one iteration can do. -/
theorem Traced.Step.cases (h : x.Step M pdg loop queued annotated y) :
    ∃ n rest, x.state.workingList = n :: rest ∧
      (((loop.marking pdg queued).visiting x.state.toQueue = none ∧
          y.state = { x.state with workingList := rest } ∧ y.followed = x.followed) ∨
        (∃ pv, y.state = visitNode M pdg loop annotated n
            { x.state with workingList := rest, processedValues := pv }) ∧
          (loop.marking pdg queued).visiting x.state.toQueue = some n ∧
          ∀ a m, y.followed a m ↔
            x.followed a m ∨ (a = n ∧ pdg.functionOf n = none ∧ m ∈ queued n)) := by
  obtain ⟨n, rest, hw, ⟨hv, hs⟩ | ⟨hv, hs⟩⟩ := traverseStep_visiting queued h.state
  · refine ⟨n, rest, hw, .inl ⟨hv, hs, ?_⟩⟩
    rw [h.followed]
    funext a m
    simp [Marking.follow, hv]
  · refine ⟨n, rest, hw, .inr ⟨hs, hv, fun a m => ?_⟩⟩
    rw [h.followed]
    unfold Marking.follow
    rw [hv, Option.some_inj]
    refine or_congr_right ⟨?_, ?_⟩
    · rintro ⟨rfl, hm⟩
      unfold TraverseLoop.marking at hm
      cases hf : pdg.functionOf n with
      | none => exact ⟨rfl, rfl, by simpa [hf] using hm⟩
      | some f => simp [hf] at hm
    · rintro ⟨rfl, hf, hm⟩
      exact ⟨rfl, by simpa [TraverseLoop.marking, hf] using hm⟩

theorem Traced.Step.followed_cases (h : x.Step M pdg loop queued annotated y) {n m : N}
    (hm : y.followed n m) : x.followed n m ∨ (pdg.functionOf n = none ∧ m ∈ queued n) := by
  obtain ⟨n', rest, -, ⟨-, -, hf⟩ | ⟨-, -, hf⟩⟩ := h.cases
  · rw [hf] at hm
    exact .inl hm
  · rcases (hf n m).1 hm with hold | ⟨rfl, hn, hqueued⟩
    · exact .inl hold
    · exact .inr ⟨hn, hqueued⟩

/-- A loop that ends is a run. -/
theorem steps_of_whileSome (queued : N → List N) (x : Traced F G V N) {fuel : Nat}
    {t : TraverseState F G V N}
    (h : whileSome (traverseStep M pdg loop annotated) fuel x.state = some t) :
    ∃ y : Traced F G V N, y.state = t ∧ t.workingList = [] ∧
      ReflTransGen (Traced.Step M pdg loop queued annotated) x y := by
  obtain ⟨⟨y, hy, hsteps⟩, hnone⟩ := whileSome_induct
    (P := fun s => ∃ y : Traced F G V N, y.state = s ∧
      ReflTransGen (Traced.Step M pdg loop queued annotated) x y)
    (fun s s' hs _ hst => by
      obtain ⟨y, rfl, hsteps⟩ := hs
      exact ⟨{ y with
        state := s'
        followed := (loop.marking pdg queued).follow y.state.toQueue y.followed }, rfl,
        hsteps.tail ⟨hst, rfl, rfl⟩⟩)
    fuel x.state t ⟨x, rfl, .refl⟩ h
  refine ⟨y, hy, ?_, hsteps⟩
  unfold traverseStep at hnone
  split at hnone
  · assumption
  · dsimp only at hnone
    split at hnone
    · cases hnone
    · split at hnone
      · cases hnone
      · split at hnone <;> cases hnone

/-- An iteration has one result. -/
theorem Traced.Step.rightUnique :
    Relator.RightUnique (Traced.Step M pdg loop queued annotated) := by
  intro x y z hy hz
  have hstate := Option.some.inj (hy.state.symm.trans hz.state)
  obtain ⟨_, _, _⟩ := y
  obtain ⟨_, _, _⟩ := z
  cases hstate
  cases hy.starts.trans hz.starts.symm
  cases hy.followed.trans hz.followed.symm
  rfl

/-- A loop that ends in `z` comes there from every state it runs through. -/
theorem steps_to_end {z : Traced F G V N} (hempty : z.state.workingList = [])
    (hz : ReflTransGen (Traced.Step M pdg loop queued annotated) x z)
    (hy : ReflTransGen (Traced.Step M pdg loop queued annotated) x y) :
    ReflTransGen (Traced.Step M pdg loop queued annotated) y z := by
  rcases ReflTransGen.total_of_right_unique Traced.Step.rightUnique hy hz with h | h
  · exact h
  · rcases ReflTransGen.cases_head h with rfl | ⟨y', hst, -⟩
    · exact .refl
    · obtain ⟨n, rest, hw, -⟩ := hst.cases
      rw [hempty] at hw
      cases hw

end Step

/-! ## Annotated arguments -/

/-- Where `PartitionForArguments::traverse` stands. -/
inductive ArgumentPhase where
  | between
  | forward
  | backward

/-- A state of `PartitionForArguments::traverse`; `rest` are the annotated arguments to come. -/
structure ArgumentState (F G V N : Type) where
  phase : ArgumentPhase
  rest : List Nat
  traced : Traced F G V N

section Arguments

variable [DecidableEq F]

/-- The state in which `traverseForward` enters its loop. -/
def Traced.startForward (pdg : PDG F G V N) (formalArgNode : N) (x : Traced F G V N) :
    Traced F G V N :=
  { x with
    state := { x.state with
      functionLevels := match pdg.getParent formalArgNode with
        | some p => MinMap.insertNew p 0 x.state.functionLevels
        | none => x.state.functionLevels
      workingList := [formalArgNode]
      processedValues := ∅
      result := [] }
    starts := insert formalArgNode x.starts }

omit [DecidableEq F] in
/-- The state in which `traverseBackward` enters its loop. -/
def Traced.startBackward (x : Traced F G V N) : Traced F G V N :=
  { x with
    state := { x.state with workingList := x.state.result, processedValues := ∅ }
    starts := x.starts ∪ { n | n ∈ x.state.result } }

def ArgumentState.start (annot : Annotation F) : ArgumentState F G V N where
  phase := .between
  rest := annot.getAnnotatedArguments
  traced := { state := { partition := ({} : Partition F G).addToPartition annot.getFunction } }

variable [DecidableEq V] (M : Module F G V) (pdg : PDG F G V N) (annot : Annotation F)

/-- The steps of `PartitionForArguments::traverse`: an argument is skipped or its formal argument
node starts the forward walk, the forward walk's list starts the backward walk, and each iteration
of a loop is a step. -/
inductive ArgumentStep : ArgumentState F G V N → ArgumentState F G V N → Prop
  | skip {arg : Nat} {rest : List Nat} {x : Traced F G V N} :
      PartitionForArguments.isPointerArg M annot arg = false ∨
        pdg.getFormalArgNode annot.getFunction arg = none →
      ArgumentStep ⟨.between, arg :: rest, x⟩ ⟨.between, rest, x⟩
  | startForward {arg : Nat} {rest : List Nat} {x : Traced F G V N} {n : N} :
      PartitionForArguments.isPointerArg M annot arg = true →
      pdg.getFormalArgNode annot.getFunction arg = some n →
      ArgumentStep ⟨.between, arg :: rest, x⟩ ⟨.forward, rest, x.startForward pdg n⟩
  | forward {rest : List Nat} {x y : Traced F G V N} :
      x.Step M pdg (forwardLoop M pdg annot.getFunction) (forwardQueued pdg) annot.getFunction y →
      ArgumentStep ⟨.forward, rest, x⟩ ⟨.forward, rest, y⟩
  | startBackward {rest : List Nat} {x : Traced F G V N} : x.state.workingList = [] →
      ArgumentStep ⟨.forward, rest, x⟩ ⟨.backward, rest, x.startBackward⟩
  | backward {rest : List Nat} {x y : Traced F G V N} :
      x.Step M pdg (backwardLoop pdg) (backwardQueued pdg) annot.getFunction y →
      ArgumentStep ⟨.backward, rest, x⟩ ⟨.backward, rest, y⟩
  | next {rest : List Nat} {x : Traced F G V N} : x.state.workingList = [] →
      ArgumentStep ⟨.backward, rest, x⟩ ⟨.between, rest, x⟩

variable {M pdg annot}

/-- The walks of one argument that end are a run. -/
theorem steps_of_traverseForArgument (rest : List Nat) {fuel arg : Nat} {x : Traced F G V N}
    {t : TraverseState F G V N} (hptr : PartitionForArguments.isPointerArg M annot arg = true)
    (h : traverseForArgument M pdg fuel annot.getFunction arg x.state = some t) :
    ∃ y : Traced F G V N, y.state = t ∧
      ReflTransGen (ArgumentStep M pdg annot) ⟨.between, arg :: rest, x⟩ ⟨.between, rest, y⟩ := by
  unfold traverseForArgument at h
  split at h
  · next hn =>
    cases h
    exact ⟨x, rfl, .single (.skip (.inr hn))⟩
  · next n hn =>
    obtain ⟨u, hu, ht⟩ := Option.bind_eq_some_iff.1 h
    obtain ⟨y, rfl, hempty, hy⟩ := steps_of_whileSome (forwardQueued pdg)
      (x.startForward pdg n) hu
    obtain ⟨z, rfl, hempty', hz⟩ := steps_of_whileSome (backwardQueued pdg)
      y.startBackward ht
    have hforward : ReflTransGen (ArgumentStep M pdg annot)
        ⟨.forward, rest, x.startForward pdg n⟩ ⟨.forward, rest, y⟩ :=
      ReflTransGen.lift (ArgumentState.mk .forward rest) (fun _ _ hst => ArgumentStep.forward hst)
        _ _ hy
    have hbackward : ReflTransGen (ArgumentStep M pdg annot)
        ⟨.backward, rest, y.startBackward⟩ ⟨.backward, rest, z⟩ :=
      ReflTransGen.lift (ArgumentState.mk .backward rest) (fun _ _ hst => ArgumentStep.backward hst)
        _ _ hz
    exact ⟨z, rfl, .trans (.head (.startForward hptr hn) hforward)
      (.head (.startBackward hempty) (hbackward.tail (.next hempty')))⟩

/-- **A traversal that ends is a run.** -/
theorem run_of_traverse {fuel : Nat} {t : TraverseState F G V N}
    (h : PartitionForArguments.traverse M pdg annot fuel = some t) :
    ∃ y : Traced F G V N, y.state = t ∧
      ReflTransGen (ArgumentStep M pdg annot) (.start annot) ⟨.between, [], y⟩ := by
  unfold PartitionForArguments.traverse at h
  have hargs : ∀ (args : List Nat) (x : Traced F G V N),
      args.foldlM (fun s arg => if PartitionForArguments.isPointerArg M annot arg then
        traverseForArgument M pdg fuel annot.getFunction arg s else some s) x.state = some t →
      ∃ y : Traced F G V N, y.state = t ∧
        ReflTransGen (ArgumentStep M pdg annot) ⟨.between, args, x⟩ ⟨.between, [], y⟩ := by
    intro args
    induction args with
    | nil =>
      intro x h
      cases h
      exact ⟨x, rfl, .refl⟩
    | cons arg args ih =>
      intro x h
      rw [List.foldlM_cons] at h
      obtain ⟨u, hu, h⟩ := Option.bind_eq_some_iff.1 h
      split at hu
      · next hptr =>
        obtain ⟨y, rfl, hy⟩ := steps_of_traverseForArgument args hptr hu
        obtain ⟨z, hz, hsteps⟩ := ih y h
        exact ⟨z, hz, hy.trans hsteps⟩
      · next hptr =>
        cases hu
        rw [Bool.not_eq_true] at hptr
        obtain ⟨z, hz, hsteps⟩ := ih x h
        exact ⟨z, hz, .head (.skip (.inl hptr)) hsteps⟩
  exact hargs annot.getAnnotatedArguments (ArgumentState.start annot).traced h

/-- The edges followed lead from nodes that are no function nodes to nodes that a walk queues
there. -/
theorem followed_of_argumentSteps {a : ArgumentState F G V N}
    (h : ReflTransGen (ArgumentStep M pdg annot) (.start annot) a) {n m : N}
    (hm : a.traced.followed n m) :
    pdg.functionOf n = none ∧ (m ∈ forwardQueued pdg n ∨ m ∈ backwardQueued pdg n) := by
  induction h with
  | refl => exact hm.elim
  | tail _ hst ih =>
    cases hst with
    | skip _ => exact ih hm
    | startForward _ _ => exact ih hm
    | forward hst =>
      rcases hst.followed_cases hm with hold | ⟨hn, hqueued⟩
      · exact ih hold
      · exact ⟨hn, .inl hqueued⟩
    | startBackward _ => exact ih hm
    | backward hst =>
      rcases hst.followed_cases hm with hold | ⟨hn, hqueued⟩
      · exact ih hold
      · exact ⟨hn, .inr hqueued⟩
    | next _ => exact ih hm

end Arguments

/-! ## Annotated return values -/

section ReturnValue

variable [DecidableEq F] (M : Module F G V) (pdg : PDG F G V N) (annot : Annotation F)

/-- The state in which `PartitionForReturnValue::traverse` enters its loop. -/
def Traced.startReturn : Traced F G V N where
  state := {
    partition := ({} : Partition F G).addToPartition annot.getFunction
    functionLevels := MinMap.insertNew annot.getFunction 0 ∅
    workingList := PartitionForReturnValue.returnNodes M pdg annot.getFunction }
  starts := { n | n ∈ PartitionForReturnValue.returnNodes M pdg annot.getFunction }

variable [DecidableEq V]

/-- An iteration of `PartitionForReturnValue::traverse`. -/
def ReturnStep : Traced F G V N → Traced F G V N → Prop :=
  Traced.Step M pdg (returnLoop pdg) (backwardQueued pdg) annot.getFunction

variable {M pdg annot}

theorem run_of_returnTraverse {fuel : Nat} {t : TraverseState F G V N}
    (h : PartitionForReturnValue.traverse M pdg annot fuel = some t) :
    ∃ y : Traced F G V N, y.state = t ∧
      ReflTransGen (ReturnStep M pdg annot) (.startReturn M pdg annot) y := by
  obtain ⟨y, hy, -, hsteps⟩ := steps_of_whileSome (backwardQueued pdg)
    (.startReturn M pdg annot) h
  exact ⟨y, hy, hsteps⟩

end ReturnValue

end Vazgen
