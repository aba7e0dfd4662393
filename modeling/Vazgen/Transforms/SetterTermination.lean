import Vazgen.Transforms.GlobalVariableExtractor

/-!
# When the instrumentation of a global ends

The loop of `addGlobalSetter` keeps no set of processed nodes: it queues every successor of every
node it pops.  So it ends exactly when no cycle of data edges can be reached from the global's node,
or when it reaches a node at which it fails (`loopEnds_iff`).  A global that is updated in a loop
has such a cycle (`counter_not_ends`).
-/

namespace Vazgen

namespace GlobalVariableExtractorHelper

open Worklist

variable {G V N T : Type}

/-! ## Data edges -/

/-- The nodes are joined by an edge that is not a control edge. -/
def DataEdge (pdg : PDG String G V N) (n m : N) : Prop :=
  ∃ edge ∈ pdg.outEdges n, edge.isControlEdge = false ∧ edge.getDestination = m

/-- No cycle of data edges is reached from the node of the global. -/
def DataAcyclic (pdg : PDG String G V N) (global : G) : Prop :=
  ∀ root, pdg.getGlobalVariableNode global = some root →
    ∀ n, Relation.ReflTransGen (DataEdge pdg) root n → ¬ Relation.TransGen (DataEdge pdg) n n

theorem mem_reachableNodes {pdg : PDG String G V N} {n m : N} :
    m ∈ reachableNodes pdg n ↔ DataEdge pdg n m := by
  unfold reachableNodes DataEdge
  simp only [List.mem_map, List.mem_filter, Bool.not_eq_true', and_assoc]

theorem unmarked_marking {pdg : PDG String G V N} (n : N) : (marking pdg).Unmarked n := ⟨rfl, rfl⟩

theorem unmarkedEdge_marking {pdg : PDG String G V N} :
    (marking pdg).UnmarkedEdge = DataEdge pdg := by
  funext n m
  refine propext ⟨fun h => mem_reachableNodes.1 h.2, fun h => ?_⟩
  exact ⟨unmarked_marking n, mem_reachableNodes.2 h⟩

/-- The nodes that the loop gets to are those reached by data edges. -/
theorem reach_marking_iff {pdg : PDG String G V N} {root n : N} :
    (marking pdg).Reach [root] n ↔ Relation.ReflTransGen (DataEdge pdg) root n := by
  have hedge : (fun a b => b ∈ (marking pdg).succ a) = DataEdge pdg := by
    funext a b
    exact propext mem_reachableNodes
  rw [Marking.reach_singleton_iff fun _ => rfl, hedge]

/-! ## Failing visits -/

section Model

variable [DecidableEq G] [DecidableEq T] [DecidableEq V] (h : Helper G V N T) (global : G)

/-- No setter of the global has been made, and the name of one belongs to something else. -/
def NameTaken (s : State G T) : Prop :=
  s.globalSetter.lookup global = none ∧
    s.module.getOrInsertFunction h.values (setterName h.values h.prefixName global)
      (h.values.setterType global) = none

/-- Visiting the node fails: it has no value, or it is a store after which no setter can be
called. -/
def Fails (s : State G T) (n : N) : Prop :=
  h.pdg.isInstruction n = true ∧
    (h.pdg.getNodeValue n = none ∨ ∃ v, StoreAt h global n v ∧ NameTaken h global s)

/-- The loop started in the state gets to a node at which it fails. -/
def Aborts (s : State G T) : Prop :=
  ∃ root, h.pdg.getGlobalVariableNode global = some root ∧
    ∃ n, Relation.ReflTransGen (DataEdge h.pdg) root n ∧ Fails h global s n

/-- The loop of `addGlobalSetter`, started in the state, ends. -/
def LoopEnds (s : State G T) : Prop :=
  ∀ root, h.pdg.getGlobalVariableNode global = some root →
    Ends (step h global) { worklist := [root], state := some s }

end Model

section Lemmas

variable [DecidableEq G] [DecidableEq T] {h : Helper G V N T} {global : G} {s s' : State G T}

theorem addGlobalSetterAfter_eq_none_iff {v : V} :
    addGlobalSetterAfter h s v global = none ↔ NameTaken h global s := by
  unfold addGlobalSetterAfter NameTaken
  cases hl : s.globalSetter.lookup global with
  | some setter => simp [hl]
  | none =>
    unfold createGlobalSetterFunction
    cases hM : s.module.getOrInsertFunction h.values (setterName h.values h.prefixName global)
        (h.values.setterType global) with
    | none => simp [hM]
    | some M => simp [hM, List.lookup_append, hl]

/-- After a store has been instrumented, the global has a setter. -/
theorem not_nameTaken_of_addGlobalSetterAfter {v : V}
    (hst : addGlobalSetterAfter h s v global = some s') : ¬ NameTaken h global s' := by
  unfold addGlobalSetterAfter at hst
  obtain ⟨s₁, -, hst⟩ := Option.bind_eq_some_iff.1 hst
  obtain ⟨setter, hsetter, rfl⟩ := Option.map_eq_some_iff.1 hst
  rintro ⟨hnone, -⟩
  rw [hsetter] at hnone
  cases hnone

variable [DecidableEq V]

theorem visitNode_eq_none_iff {n : N} : visitNode h global n s = none ↔ Fails h global s n := by
  unfold visitNode Fails StoreAt
  cases hn : h.pdg.isInstruction n with
  | false => simp
  | true =>
    cases hv : h.pdg.getNodeValue n with
    | none => simp
    | some v =>
      cases hstore : isGlobalStore h global v with
      | false =>
        simp only [Option.bind_some, hstore, if_true, Bool.false_eq_true, if_false]
        simp [hstore]
      | true => simp [hstore, addGlobalSetterAfter_eq_none_iff]

/-- **A visit does not change where the loop fails.** -/
theorem fails_visitNode {n m : N} (hst : visitNode h global m s = some s') :
    Fails h global s' n ↔ Fails h global s n := by
  have hsame : NameTaken h global s' ↔ NameTaken h global s := by
    unfold visitNode at hst
    split at hst
    · obtain ⟨v, -, hst⟩ := Option.bind_eq_some_iff.1 hst
      split at hst
      · refine iff_of_false (not_nameTaken_of_addGlobalSetterAfter hst) fun htaken => ?_
        rw [addGlobalSetterAfter_eq_none_iff.2 htaken] at hst
        cases hst
      · cases hst
        exact Iff.rfl
    · cases hst
      exact Iff.rfl
  unfold Fails
  rw [hsame]

/-! ## Termination -/

/-- The queue of the loop. -/
def LoopState.toQueue (l : LoopState G N T) : Queue N Empty :=
  { pending := l.worklist, marked := ∅ }

/-- One iteration that starts in a state. -/
theorem step_of_state {l : LoopState G N T} {st : State G T} (hl : l.state = some st) :
    step h global l = match l.worklist with
      | [] => none
      | n :: rest => some { worklist := rest ++ reachableNodes h.pdg n,
                            state := visitNode h global n st } := by
  unfold step
  rw [hl]
  cases l.worklist with
  | nil => rfl
  | cons n rest => rfl

/-- Where no visit fails, the loop runs as the loop of `marking`. -/
theorem step_toQueue {l : LoopState G N T} {st : State G T} (hl : l.state = some st) :
    (step h global l).map LoopState.toQueue = (marking h.pdg).step l.toQueue := by
  rw [step_of_state hl]
  unfold LoopState.toQueue Marking.step
  cases l.worklist with
  | nil => rfl
  | cons n rest => rfl

/-- The state that the loop is in, with only reached nodes pending. -/
def Running (h : Helper G V N T) (global : G) (root : N) (l : LoopState G N T) : Prop :=
  (∃ st, l.state = some st ∧
    ∀ n, Relation.ReflTransGen (DataEdge h.pdg) root n → ¬ Fails h global st n) ∧
    ∀ n ∈ l.worklist, Relation.ReflTransGen (DataEdge h.pdg) root n

theorem Running.step {root : N} {l l' : LoopState G N T} (hl : Running h global root l)
    (hst : step h global l = some l') : Running h global root l' := by
  obtain ⟨⟨st, hstate, hok⟩, hpending⟩ := hl
  rw [step_of_state hstate] at hst
  cases hw : l.worklist with
  | nil =>
    rw [hw] at hst
    cases hst
  | cons n rest =>
    rw [hw] at hst hpending
    cases hst
    have hn := hpending n List.mem_cons_self
    obtain ⟨st', hst'⟩ : ∃ st', visitNode h global n st = some st' :=
      Option.ne_none_iff_exists'.1 fun hnone => hok n hn (visitNode_eq_none_iff.1 hnone)
    refine ⟨⟨st', hst', fun m hm hfail => hok m hm ((fails_visitNode hst').1 hfail)⟩,
      fun m hm => ?_⟩
    rcases List.mem_append.1 hm with hm | hm
    · exact hpending m (List.mem_cons_of_mem n hm)
    · exact hn.tail (mem_reachableNodes.1 hm)

/-- Where no visit fails, the loop ends if and only if the loop of `marking` does. -/
theorem ends_iff_marking (habort : ¬ Aborts h global s) {root : N}
    (hroot : h.pdg.getGlobalVariableNode global = some root) :
    Ends (step h global) { worklist := [root], state := some s } ↔
      Ends (marking h.pdg).step { pending := [root], marked := ∅ } := by
  refine ends_map_of (π := LoopState.toQueue) (P := Running h global root)
    (fun l l' hl hst => hl.step hst) (fun l hl => ?_) ?_
  · obtain ⟨⟨st, hstate, -⟩, -⟩ := hl
    exact step_toQueue hstate
  · refine ⟨⟨s, rfl, fun n hn hfail => habort ⟨root, hroot, n, hn, hfail⟩⟩, fun n hn => ?_⟩
    rw [List.mem_singleton.1 hn]

/-- A loop that fails somewhere ends: the failing node comes to the front of the queue. -/
theorem Aborts.loopEnds (habort : Aborts h global s) : LoopEnds h global s := by
  obtain ⟨root, hroot, n, hn, hfail⟩ := habort
  intro root' hroot'
  rw [hroot] at hroot'
  cases hroot'
  obtain ⟨t, rest, ht, hfront, -⟩ := Marking.visits_of_reach
    (fun m _ => unmarked_marking m) (reach_marking_iff.2 hn)
  let start : LoopState G N T := { worklist := [root], state := some s }
  -- the run of the marking loop up to `t`, or an earlier failure
  have hrun : Ends (step h global) start ∨ ∃ l st, Reaches (step h global) start l ∧
      l.toQueue = t ∧ l.state = some st ∧ Fails h global st n := by
    refine ht.induct (P := fun t => _ ∨ ∃ l st, Reaches (step h global) start l ∧
      l.toQueue = t ∧ l.state = some st ∧ Fails h global st n)
      (.inr ⟨start, s, .refl, rfl, rfl, hfail⟩) ?_
    rintro a b (hends | ⟨l, st, hl, rfl, hstate, hfail⟩) hab
    · exact .inl hends
    · rw [← step_toQueue hstate] at hab
      obtain ⟨l', hl', rfl⟩ := Option.map_eq_some_iff.1 hab
      have hreach := hl.tail hl'
      rw [step_of_state hstate] at hl'
      cases hw : l.worklist with
      | nil =>
        rw [hw] at hl'
        cases hl'
      | cons m rest =>
        rw [hw] at hl'
        cases hl'
        cases hst : visitNode h global m st with
        | none =>
          rw [hst] at hreach
          refine .inl (ends_of_reaches hreach ⟨1, _, whileSome_succ_of_none ?_ 0⟩)
          unfold GlobalVariableExtractorHelper.step
          simp
        | some st' => 
          rw [hst] at hreach
          exact .inr ⟨_, st', hreach, rfl, rfl, (fails_visitNode hst).2 hfail⟩
  rcases hrun with hends | ⟨l, st, hl, hqueue, hstate, hfail⟩
  · exact hends
  · have hw : l.worklist = n :: rest := by rw [← hfront, ← hqueue]; rfl
    have hst : step h global l =
        some { worklist := rest ++ reachableNodes h.pdg n, state := none } := by
      rw [step_of_state hstate, hw, ← visitNode_eq_none_iff.2 hfail]
    refine ends_of_reaches (hl.tail hst) ⟨1, _, whileSome_succ_of_none ?_ 0⟩
    unfold GlobalVariableExtractorHelper.step
    simp

/-- A loop that ends without failing reaches no cycle of data edges. -/
theorem dataAcyclic_of_loopEnds (habort : ¬ Aborts h global s) (hends : LoopEnds h global s) :
    DataAcyclic h.pdg global := by
  intro root hroot n hn hcycle
  have hends := (ends_iff_marking habort hroot).1 (hends root hroot)
  rw [← unmarkedEdge_marking] at hcycle
  refine Marking.no_cycle_of_ends _ ?_ hends (reach_marking_iff.2 hn) hcycle
  intro a b k _ _ _ _ hk
  exact k.elim

end Lemmas

/-! ## Top theorem -/

section Top

variable [DecidableEq G] [DecidableEq T] [DecidableEq V] [Finite N]

/-- **Termination of the instrumentation.**  The loop for a global ends exactly when no cycle of
data edges is reached from the global's node, or the loop fails at a node that is reached. -/
theorem loopEnds_iff (h : Helper G V N T) (global : G) (s : State G T) :
    LoopEnds h global s ↔ DataAcyclic h.pdg global ∨ Aborts h global s := by
  by_cases habort : Aborts h global s
  · exact iff_of_true habort.loopEnds (.inr habort)
  · rw [or_iff_left habort]
    refine ⟨dataAcyclic_of_loopEnds habort, fun hacyclic root hroot => ?_⟩
    rw [ends_iff_marking habort hroot]
    refine Marking.ends_of_no_cycle _ fun n hn hcycle => ?_
    rw [unmarkedEdge_marking] at hcycle
    exact hacyclic root hroot n (reach_marking_iff.1 hn) hcycle

end Top

/-! ## A counter -/

/-- The nodes of the global `count` and of the load and the store of `count = count + 1`. -/
inductive CounterNode
  | count
  | load
  | store
deriving DecidableEq

instance : Fintype CounterNode where
  elems := {.count, .load, .store}
  complete n := by cases n <;> decide

def counterValues : ModuleValues Unit CounterNode Unit where
  globals := [()]
  getGlobalName _ := "count"
  initializer _ := []
  setterType _ := ()
  globalValue _ := .count
  valueClass v := if v = .store then .storeInst .load .count else .other
  getFunction _ := "tick"

def counterModule : LLVMModule Unit where
  functions := ["tick"]
  getFunctionType _ := ()
  isDeclaration _ := false
  callees _ := []
  operands _ := []

/-- The data edges from `count` to the load, from the load to the store, and, if the statement
stands in a loop, from the store back to the load. -/
def counterPDG (inLoop : Bool) : PDG String Unit CounterNode CounterNode where
  kind n := if n = .count then .globalVariable else .instruction "tick"
  isLLVMNode _ := true
  getNodeValue n := some n
  getParent n := if n = .count then none else some "tick"
  isPointerArgOperand _ := false
  outEdges n := match n with
    | .count => [{ getSource := .count, getDestination := .load, isControlEdge := false }]
    | .load => [{ getSource := .load, getDestination := .store, isControlEdge := false }]
    | .store =>
      if inLoop then
        [{ getSource := .store, getDestination := .load, isControlEdge := false }] else []
  inEdges _ := []
  hasFunctionPDG _ := true
  getCallSites _ := []
  llvmNodes _ := []
  getNode _ v := some v
  getFormalArgNode _ _ := none
  getGlobalVariableNode _ := some .count

/-- The helper for a side whose partition contains `tick`. -/
def counterHelper (inLoop : Bool) : Helper Unit CounterNode CounterNode Unit where
  values := counterValues
  pdg := counterPDG inLoop
  partition := { partition := {"tick"}, partitionGlobals := {()} }
  prefixName := "enclave"

theorem counter_not_aborts (inLoop : Bool) :
    ¬ Aborts (counterHelper inLoop) () { module := counterModule } := by
  rintro ⟨root, -, n, -, -, hfail⟩
  rcases hfail with hnone | ⟨v, -, -, htaken⟩
  · cases hnone
  · cases inLoop with
    | false => revert htaken; decide
    | true => revert htaken; decide

/-- A counter that is incremented in a loop: the loop of the instrumentation never ends. -/
theorem counter_not_ends :
    ¬ LoopEnds (counterHelper true) () { module := counterModule } := by
  intro hends
  have hload : DataEdge (counterPDG true) .count .load := ⟨_, List.mem_singleton_self _, rfl, rfl⟩
  have hstore : DataEdge (counterPDG true) .load .store := ⟨_, List.mem_singleton_self _, rfl, rfl⟩
  have hback : DataEdge (counterPDG true) .store .load := ⟨_, List.mem_singleton_self _, rfl, rfl⟩
  exact dataAcyclic_of_loopEnds (counter_not_aborts true) hends .count rfl .load (.single hload)
    (.tail (.single hstore) hback)

/-- The counter that is incremented once. -/
theorem countOnce_ends : LoopEnds (counterHelper false) () { module := counterModule } := by
  refine (loopEnds_iff (counterHelper false) () _).2 (.inl fun root _ n _ hcycle => ?_)
  have hforward : ∀ a b, DataEdge (counterPDG false) a b → a.ctorIdx < b.ctorIdx := by
    rintro a b ⟨edge, hedge, -, rfl⟩
    cases a with
    | count => cases hedge with
      | head => decide
      | tail _ hnil => cases hnil
    | load => cases hedge with
      | head => decide
      | tail _ hnil => cases hnil
    | store => cases hedge
  have hlt : Relation.TransGen (· < ·) n.ctorIdx n.ctorIdx :=
    Relation.TransGen.lift CounterNode.ctorIdx hforward n n hcycle
  rw [Relation.transGen_eq_self] at hlt
  exact lt_irrefl _ hlt

end GlobalVariableExtractorHelper

end Vazgen
