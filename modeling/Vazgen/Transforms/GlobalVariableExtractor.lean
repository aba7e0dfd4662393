import Vazgen.Analysis.Partition
import Vazgen.Lib.Worklist
import Mathlib.Logic.Function.Basic

/-!
# Setters for the globals of the other side

`instrumentForGlobals` follows each global of a partition through the graph.  After every store to
it in a function of the partition, it calls a function `set_<side>_<global>` that it has added to
the module.

**`instrumentForGlobals_spec`**: exactly the stores that are reached are followed by a call, and
exactly the setters that are called have been added.
-/

namespace Vazgen

open Worklist

variable {G V N T : Type}

/-! ## Modules -/

/-- The values of a module that the extraction never changes. -/
structure ModuleValues (G V T : Type) where
  globals : List G
  getGlobalName : G → String
  /-- the functions that the initializer of a global refers to -/
  initializer : G → List String
  /-- the type of a function from the global's value type to `void` -/
  setterType : G → T
  globalValue : G → V
  valueClass : V → ValueClass V
  /-- the function that an instruction stands in -/
  getFunction : V → String

def ModuleValues.globalNames (values : ModuleValues G V T) : List String :=
  values.globals.map values.getGlobalName

/-- The functions of an `llvm::Module` in module order.  They are known by their names, which a
module keeps distinct. -/
structure LLVMModule (T : Type) where
  functions : List String
  getFunctionType : String → T
  isDeclaration : String → Bool
  /-- the functions that a function calls -/
  callees : String → List String
  /-- the other functions that a function refers to -/
  operands : String → List String

/-- `llvm::Function::isIntrinsic` goes by the name. -/
def isIntrinsic (name : String) : Bool := "llvm.".toList.isPrefixOf name.toList

/-- `getOrInsertFunction`, cast to a function: `none` when the name belongs to something else. -/
def LLVMModule.getOrInsertFunction [DecidableEq T] (values : ModuleValues G V T)
    (M : LLVMModule T) (name : String) (type : T) : Option (LLVMModule T) :=
  if name ∈ M.functions then
    if M.getFunctionType name = type then some M else none
  else if name ∈ values.globalNames then none
  else some
    { functions := M.functions ++ [name]
      getFunctionType := Function.update M.getFunctionType name type
      isDeclaration := Function.update M.isDeclaration name true
      callees := Function.update M.callees name []
      operands := Function.update M.operands name [] }

/-- Append the basic block of a setter, which refers to no function. -/
def LLVMModule.createBody (M : LLVMModule T) (name : String) : LLVMModule T :=
  { M with isDeclaration := Function.update M.isDeclaration name false }

def LLVMModule.createCall (M : LLVMModule T) (caller callee : String) : LLVMModule T :=
  { M with callees := Function.update M.callees caller (M.callees caller ++ [callee]) }

/-! ## Algorithm -/

namespace GlobalVariableExtractorHelper

/-- The members that change. -/
structure State (G T : Type) where
  module : LLVMModule T
  globalSetter : List (G × String) := []

/-- `getGlobalSetters` -/
def State.getGlobalSetters (s : State G T) : Finset String :=
  (s.globalSetter.map Prod.snd).toFinset

def setterName (values : ModuleValues G V T) (prefixName : String) (global : G) : String :=
  "set_" ++ prefixName ++ "_" ++ values.getGlobalName global

/-- What the helper is constructed with. -/
structure Helper (G V N T : Type) where
  values : ModuleValues G V T
  pdg : PDG String G V N
  partition : Partition String G
  prefixName : String

/-- The loop of `addGlobalSetter`; the state is `none` after a failed assertion or cast. -/
structure LoopState (G N T : Type) where
  /-- the node at the back of the list comes first -/
  worklist : List N
  state : Option (State G T)

/-- `addReachableNodes`: the nodes that are queued. -/
def reachableNodes (pdg : PDG String G V N) (n : N) : List N :=
  ((pdg.outEdges n).filter fun edge => !edge.isControlEdge).map (·.getDestination)

section Model

variable [DecidableEq G] [DecidableEq T] [DecidableEq V] (h : Helper G V N T)

def createGlobalSetterFunction (s : State G T) (global : G) : Option (State G T) :=
  let fName := setterName h.values h.prefixName global
  (s.module.getOrInsertFunction h.values fName (h.values.setterType global)).map fun M =>
    { module := M.createBody fName, globalSetter := s.globalSetter ++ [(global, fName)] }

def addGlobalSetterAfter (s : State G T) (instr : V) (global : G) : Option (State G T) :=
  (match s.globalSetter.lookup global with
    | some _ => some s
    | none => createGlobalSetterFunction h s global).bind fun s =>
      (s.globalSetter.lookup global).map fun setter =>
        { s with module := s.module.createCall (h.values.getFunction instr) setter }

/-- The value is a store to the global in a function of the partition. -/
def isGlobalStore (global : G) (v : V) : Bool :=
  match h.values.valueClass v with
  | .storeInst _ pointer =>
    decide (pointer = h.values.globalValue global ∧
      h.values.getFunction v ∈ h.partition.partition)
  | .callInst | .invokeInst | .other => false

/-- What the loop does with a popped node, before it queues the reachable ones. -/
def visitNode (global : G) (n : N) (s : State G T) : Option (State G T) :=
  if h.pdg.isInstruction n then
    (h.pdg.getNodeValue n).bind fun v =>
      if isGlobalStore h global v then addGlobalSetterAfter h s v global else some s
  else some s

def step (global : G) (s : LoopState G N T) : Option (LoopState G N T) :=
  match s.worklist, s.state with
  | n :: rest, some st =>
    some { worklist := rest ++ reachableNodes h.pdg n, state := visitNode h global n st }
  | _, _ => none

def addGlobalSetter (fuel : Nat) (s : State G T) (global : G) : Option (State G T) :=
  match h.pdg.getGlobalVariableNode global with
  | none => some s
  | some n => (whileSome (step h global) fuel { worklist := [n], state := some s }).bind (·.state)

def instrumentForGlobals (order : IterationOrder G) (fuel : Nat) (M : LLVMModule T) :
    Option (State G T) :=
  (order.list h.partition.partitionGlobals).foldlM (addGlobalSetter h fuel) { module := M }

end Model

end GlobalVariableExtractorHelper

/-! ## The setters that are made and called -/

theorem LLVMModule.mem_functions_getOrInsertFunction [DecidableEq T] {values : ModuleValues G V T}
    {M M' : LLVMModule T} {name : String} {type : T}
    (h : M.getOrInsertFunction values name type = some M') (f : String) :
    f ∈ M'.functions ↔ f ∈ M.functions ∨ f = name := by
  unfold getOrInsertFunction at h
  split at h
  · next hname =>
    split at h
    · cases h
      rw [or_iff_left_of_imp]
      rintro rfl
      exact hname
    · cases h
  · split at h
    · cases h
    · cases h
      simp

theorem LLVMModule.nodup_functions_getOrInsertFunction [DecidableEq T]
    {values : ModuleValues G V T} {M M' : LLVMModule T} {name : String} {type : T}
    (h : M.getOrInsertFunction values name type = some M') (hnodup : M.functions.Nodup) :
    M'.functions.Nodup := by
  unfold getOrInsertFunction at h
  split at h
  · split at h
    · cases h
      exact hnodup
    · cases h
  · next hname =>
    split at h
    · cases h
    · cases h
      exact List.nodup_append.2 ⟨hnodup, List.nodup_singleton name, fun f hf g hg =>
        List.mem_singleton.1 hg ▸ ne_of_mem_of_not_mem hf hname⟩

/-- After `getOrInsertFunction` and the construction of a body, the module defines `name`. -/
theorem LLVMModule.getOrInsertFunction_spec [DecidableEq T] {values : ModuleValues G V T}
    {M M' : LLVMModule T} {name : String} {type : T}
    (hdistinct : ∀ f ∈ M.functions, f ∉ values.globalNames)
    (h : M.getOrInsertFunction values name type = some M') :
    (∀ f, f ∈ M'.functions ↔ f ∈ M.functions ∨ f = name) ∧
      (∀ f, (M'.createBody name).isDeclaration f = true ↔
        M.isDeclaration f = true ∧ f ≠ name) ∧
      (∀ f ∈ M.functions, M'.callees f = M.callees f) ∧ name ∉ values.globalNames := by
  have hbody : ∀ isDeclaration : String → Bool,
      (∀ f, f ≠ name → isDeclaration f = M.isDeclaration f) →
      ∀ f, Function.update isDeclaration name false f = true ↔
        M.isDeclaration f = true ∧ f ≠ name := by
    intro isDeclaration heq f
    by_cases hf : f = name
    · subst hf
      simp
    · rw [Function.update_of_ne hf, heq f hf]
      simp [hf]
  refine ⟨mem_functions_getOrInsertFunction h, ?_⟩
  unfold getOrInsertFunction at h
  split at h
  · next hname =>
    split at h
    · cases h
      exact ⟨hbody _ fun _ _ => rfl, fun _ _ => rfl, hdistinct name hname⟩
    · cases h
  · next hname =>
    split at h
    · cases h
    · next hglobal =>
      cases h
      refine ⟨hbody _ fun f hf => ?_, fun f hf => ?_, hglobal⟩
      · exact Function.update_of_ne hf _ _
      · exact Function.update_of_ne (ne_of_mem_of_not_mem hf hname) _ _

namespace GlobalVariableExtractorHelper

/-- The loop of `addGlobalSetter` marks nothing: it expands a node at every visit. -/
def marking (pdg : PDG String G V N) : Marking N Empty where
  stop _ := false
  key _ := none
  succ := reachableNodes pdg

/-- The node holds a store to the global. -/
def StoreAt [DecidableEq V] (h : Helper G V N T) (global : G) (n : N) (v : V) : Prop :=
  h.pdg.isInstruction n = true ∧ h.pdg.getNodeValue n = some v ∧ isGlobalStore h global v = true

/-- A store to the global that the loop reaches from the global's node. -/
def ReachesStore [DecidableEq V] (h : Helper G V N T) (global : G) (v : V) : Prop :=
  ∃ root, h.pdg.getGlobalVariableNode global = some root ∧
    ∃ n, (marking h.pdg).Reach [root] n ∧ StoreAt h global n v

/-- The stores that are followed by a call of a setter. -/
def Helper.stores [DecidableEq V] (h : Helper G V N T) : Set (G × V) :=
  {p | p.1 ∈ h.partition.partitionGlobals ∧ ReachesStore h p.1 p.2}

/-- The setters of the globals `made` have been added to the module, and called after the stores
`called`. -/
structure Made (h : Helper G V N T) (M : LLVMModule T) (made : Set G) (called : Set (G × V))
    (s : State G T) : Prop where
  globalSetter : ∀ g f, (g, f) ∈ s.globalSetter ↔
    g ∈ made ∧ f = setterName h.values h.prefixName g
  functions : ∀ f, f ∈ s.module.functions ↔
    f ∈ M.functions ∨ ∃ g ∈ made, f = setterName h.values h.prefixName g
  isDeclaration : ∀ f, s.module.isDeclaration f = true ↔
    M.isDeclaration f = true ∧ ∀ g ∈ made, f ≠ setterName h.values h.prefixName g
  callees : ∀ f ∈ M.functions, ∀ c, c ∈ s.module.callees f ↔ c ∈ M.callees f ∨
    ∃ p ∈ called, f = h.values.getFunction p.2 ∧ c = setterName h.values h.prefixName p.1
  distinct : ∀ f ∈ s.module.functions, f ∉ h.values.globalNames
  nodup : M.functions.Nodup → s.module.functions.Nodup

/-- Exactly the setters that are called have been made. -/
def Instrumented (h : Helper G V N T) (M : LLVMModule T) (called : Set (G × V))
    (s : State G T) : Prop :=
  Made h M (Prod.fst '' called) called s

section Lemmas

variable [DecidableEq G] [DecidableEq T] {h : Helper G V N T} {M : LLVMModule T} {made : Set G}
  {called : Set (G × V)} {s s' : State G T} {global : G}

omit [DecidableEq G] in
theorem Made.create (hs : Made h M made called s)
    (hst : createGlobalSetterFunction h s global = some s') :
    Made h M (insert global made) called s' := by
  unfold createGlobalSetterFunction at hst
  obtain ⟨M', hM', rfl⟩ := Option.map_eq_some_iff.1 hst
  obtain ⟨hfunctions, hdecl, hcallees, hname⟩ :=
    LLVMModule.getOrInsertFunction_spec hs.distinct hM'
  refine ⟨fun g f => ?_, fun f => ?_, fun f => ?_, fun f hf c => ?_, fun f hf => ?_, fun hM => ?_⟩
  · rw [List.mem_append, hs.globalSetter, List.mem_singleton, Prod.mk.injEq, Set.mem_insert_iff]
    constructor
    · rintro (⟨hg, rfl⟩ | ⟨rfl, rfl⟩)
      · exact ⟨.inr hg, rfl⟩
      · exact ⟨.inl rfl, rfl⟩
    · rintro ⟨rfl | hg, rfl⟩
      · exact .inr ⟨rfl, rfl⟩
      · exact .inl ⟨hg, rfl⟩
  · refine (hfunctions f).trans ?_
    rw [hs.functions, Set.exists_mem_insert, or_assoc]
    exact or_congr_right or_comm
  · rw [hdecl, hs.isDeclaration, Set.forall_mem_insert]
    tauto
  · have hmem : f ∈ s.module.functions := (hs.functions f).2 (.inl hf)
    rw [← hs.callees f hf c]
    exact iff_of_eq (congrArg (c ∈ ·) (hcallees f hmem))
  · rcases (hfunctions f).1 hf with hf | rfl
    · exact hs.distinct f hf
    · exact hname
  · show M'.functions.Nodup
    exact LLVMModule.nodup_functions_getOrInsertFunction hM' (hs.nodup hM)

omit [DecidableEq G] [DecidableEq T] in
theorem Made.call (hs : Made h M made called s) (v : V) :
    Made h M made (insert (global, v) called)
      { s with module := s.module.createCall (h.values.getFunction v)
                (setterName h.values h.prefixName global) } := by
  refine ⟨hs.globalSetter, hs.functions, hs.isDeclaration, fun f hf c => ?_, hs.distinct, hs.nodup⟩
  rw [Set.exists_mem_insert]
  by_cases hv : f = h.values.getFunction v
  · subst hv
    simp only [LLVMModule.createCall, Function.update_self, List.mem_append, List.mem_singleton,
      hs.callees _ hf, true_and, or_assoc]
    exact or_congr_right or_comm
  · simp only [LLVMModule.createCall, Function.update_of_ne hv, hs.callees f hf, hv, false_and,
      false_or]

/-- **Instrumenting one store.** -/
theorem Instrumented.addGlobalSetterAfter (hs : Instrumented h M called s) {v : V}
    (hst : addGlobalSetterAfter h s v global = some s') :
    Instrumented h M (insert (global, v) called) s' := by
  unfold GlobalVariableExtractorHelper.addGlobalSetterAfter at hst
  obtain ⟨s₁, hs₁, hst⟩ := Option.bind_eq_some_iff.1 hst
  obtain ⟨setter, hsetter, rfl⟩ := Option.map_eq_some_iff.1 hst
  have hmade : Made h M (Prod.fst '' insert (global, v) called) called s₁ := by
    rw [Set.image_insert_eq]
    split at hs₁
    · next f hf =>
      cases hs₁
      obtain ⟨_, _, hl, -⟩ := List.lookup_eq_some_iff.1 hf
      have hmem : global ∈ Prod.fst '' called :=
        ((hs.globalSetter global f).1 (by rw [hl]; simp)).1
      rw [Set.insert_eq_of_mem hmem]
      exact hs
    · exact Made.create hs hs₁
  obtain ⟨_, _, hl, -⟩ := List.lookup_eq_some_iff.1 hsetter
  rw [((hmade.globalSetter global setter).1 (by rw [hl]; simp)).2]
  exact hmade.call v

variable [DecidableEq V]

theorem Instrumented.visitNode (hs : Instrumented h M called s) {n : N}
    (hst : visitNode h global n s = some s') :
    Instrumented h M (called ∪ {p | p.1 = global ∧ StoreAt h global n p.2}) s' := by
  unfold GlobalVariableExtractorHelper.visitNode at hst
  have hnone : (∀ v, ¬ StoreAt h global n v) → 
      called ∪ {p | p.1 = global ∧ StoreAt h global n p.2} = called := by
    intro hno
    refine Set.union_eq_self_of_subset_right fun p hp => ?_
    exact absurd hp.2 (hno p.2)
  split at hst
  · next hn =>
    obtain ⟨v, hv, hst⟩ := Option.bind_eq_some_iff.1 hst
    split at hst
    · next hstore =>
      have hone : called ∪ {p | p.1 = global ∧ StoreAt h global n p.2} =
          insert (global, v) called := by
        rw [Set.insert_eq, Set.union_comm]
        congr 1
        ext ⟨g, w⟩
        rw [Set.mem_singleton_iff, Prod.mk.injEq]
        constructor
        · rintro ⟨rfl, -, hw, -⟩
          rw [hv] at hw
          exact ⟨rfl, (Option.some.inj hw).symm⟩
        · rintro ⟨rfl, rfl⟩
          exact ⟨rfl, hn, hv, hstore⟩
      rw [hone]
      exact hs.addGlobalSetterAfter hst
    · next hstore =>
      cases hst
      rw [hnone]
      · exact hs
      · rintro w ⟨-, hw, hw'⟩
        rw [hv] at hw
        cases hw
        exact hstore hw'
  · next hn =>
    cases hst
    rw [hnone fun v hv => hn hv.1]
    exact hs

/-- The nodes `D` have been visited, and their stores are instrumented. -/
def Visited (h : Helper G V N T) (M : LLVMModule T) (called : Set (G × V)) (global : G) (root : N)
    (s : LoopState G N T) : Prop :=
  ∃ D, (marking h.pdg).Cover [root] D { pending := s.worklist, marked := ∅ } ∧
    ∀ st, s.state = some st →
      Instrumented h M (called ∪ {p | p.1 = global ∧ ∃ n ∈ D, StoreAt h global n p.2}) st

theorem Visited.step {root : N} {l l' : LoopState G N T}
    (hl : Visited h M called global root l) (hst : step h global l = some l') :
    Visited h M called global root l' := by
  obtain ⟨D, hcover, hstate⟩ := hl
  unfold GlobalVariableExtractorHelper.step at hst
  split at hst
  · next n rest st hwork hsome =>
    cases hst
    refine ⟨insert n D, hcover.expand hwork rfl fun k hk => .inl hk, fun st' hst' => ?_⟩
    have hvisit := (hstate st hsome).visitNode hst'
    have hset : (called ∪ {p | p.1 = global ∧ ∃ m ∈ insert n D, StoreAt h global m p.2}) =
        (called ∪ {p | p.1 = global ∧ ∃ m ∈ D, StoreAt h global m p.2}) ∪
          {p | p.1 = global ∧ StoreAt h global n p.2} := by
      ext p
      simp only [Set.mem_union, Set.mem_ofPred_eq, Set.exists_mem_insert, and_or_left]
      rw [or_assoc]
      exact or_congr_right or_comm
    rw [hset]
    exact hvisit
  · cases hst

/-- **The loop of `addGlobalSetter` instruments the stores that it reaches.** -/
theorem Instrumented.addGlobalSetter (hs : Instrumented h M called s) {fuel : Nat}
    (hst : addGlobalSetter h fuel s global = some s') :
    Instrumented h M (called ∪ {p | p.1 = global ∧ ReachesStore h global p.2}) s' := by
  unfold GlobalVariableExtractorHelper.addGlobalSetter at hst
  split at hst
  · next hroot =>
    cases hst
    rw [Set.union_eq_self_of_subset_right]
    · exact hs
    · rintro p ⟨-, root, hsome, -⟩
      rw [hroot] at hsome
      cases hsome
  · next root hroot =>
    obtain ⟨t, ht, hstate⟩ := Option.bind_eq_some_iff.1 hst
    have hstart : Visited h M called global root { worklist := [root], state := some s } := by
      refine ⟨∅, (marking h.pdg).cover_start [root], fun st hst => ?_⟩
      cases hst
      have hempty : {p : G × V | p.1 = global ∧ ∃ n ∈ (∅ : Set N), StoreAt h global n p.2} = ∅ := by
        simp
      rw [hempty, Set.union_empty]
      exact hs
    obtain ⟨⟨D, hcover, hcalled⟩, hend⟩ :=
      whileSome_induct (fun l l' hl _ hst => hl.step hst) fuel _ t hstart ht
    have hwork : t.worklist = [] := by
      unfold GlobalVariableExtractorHelper.step at hend
      split at hend
      · cases hend
      · next hno => 
        cases hw : t.worklist with
        | nil => rfl
        | cons n rest => exact (hno n rest s' hw hstate).elim
    have hset : {p : G × V | p.1 = global ∧ ReachesStore h global p.2} =
        {p | p.1 = global ∧ ∃ n ∈ D, StoreAt h global n p.2} := by
      ext p
      refine and_congr_right fun _ => ?_
      constructor
      · rintro ⟨root', hroot', n, hn, hstore⟩
        rw [hroot] at hroot'
        cases hroot'
        exact ⟨n, hcover.reach_popped hwork hn, hstore⟩
      · rintro ⟨n, hn, hstore⟩
        exact ⟨root, hroot, n, hcover.popped_reach n hn, hstore⟩
    rw [hset]
    exact hcalled s' hstate

/-- **Exactly the reached stores to the partition's globals are instrumented.** -/
theorem instrumentForGlobals_spec {order : IterationOrder G} {fuel : Nat}
    (hdistinct : ∀ f ∈ M.functions, f ∉ h.values.globalNames)
    (hst : instrumentForGlobals h order fuel M = some s) : Instrumented h M h.stores s := by
  have hfold : ∀ (gs : List G) (called : Set (G × V)) (s t : State G T),
      Instrumented h M called s → gs.foldlM (addGlobalSetter h fuel) s = some t →
      Instrumented h M (called ∪ {p | p.1 ∈ gs ∧ ReachesStore h p.1 p.2}) t := by
    intro gs
    induction gs with
    | nil =>
      intro called s t hs ht
      cases ht
      simpa using hs
    | cons g gs ih =>
      intro called s t hs ht
      rw [List.foldlM_cons] at ht
      obtain ⟨s₁, hs₁, ht⟩ := Option.bind_eq_some_iff.1 ht
      have hmore := ih _ s₁ t (hs.addGlobalSetter hs₁) ht
      have hset : called ∪ {p : G × V | p.1 ∈ g :: gs ∧ ReachesStore h p.1 p.2} =
          called ∪ {p | p.1 = g ∧ ReachesStore h g p.2} ∪
            {p | p.1 ∈ gs ∧ ReachesStore h p.1 p.2} := by
        ext p
        simp only [Set.mem_union, Set.mem_ofPred_eq, List.mem_cons, or_and_right, or_assoc]
        refine or_congr_right (or_congr_left (and_congr_right fun hp => ?_))
        rw [hp]
      rw [hset]
      exact hmore
  have hstart : Instrumented h M ∅ { module := M } := by
    refine ⟨fun g f => ?_, fun f => ?_, fun f => ?_, fun f _ c => ?_, hdistinct, id⟩ <;> simp
  have hend := hfold _ _ _ _ hstart hst
  have hset : h.stores = {p | p.1 ∈ order.list h.partition.partitionGlobals ∧
      ReachesStore h p.1 p.2} := by
    ext p
    simp only [Helper.stores, Set.mem_ofPred_eq, order.mem]
  rw [hset, ← Set.empty_union {p | _}]
  exact hend

omit [DecidableEq G] [DecidableEq T] [DecidableEq V] in
theorem Instrumented.mem_getGlobalSetters (hs : Instrumented h M called s) (f : String) :
    f ∈ s.getGlobalSetters ↔ ∃ p ∈ called, f = setterName h.values h.prefixName p.1 := by
  unfold State.getGlobalSetters
  rw [List.mem_toFinset, List.mem_map]
  constructor
  · rintro ⟨⟨g, f⟩, hmem, rfl⟩
    obtain ⟨⟨p, hp, rfl⟩, hf⟩ := (hs.globalSetter g f).1 hmem
    exact ⟨p, hp, hf⟩
  · rintro ⟨p, hp, rfl⟩
    exact ⟨(p.1, _), (hs.globalSetter p.1 _).2 ⟨Set.mem_image_of_mem Prod.fst hp, rfl⟩, rfl⟩

omit [DecidableEq G] [DecidableEq T] in
theorem isGlobalStore_spec {v : V} (hv : isGlobalStore h global v = true) :
    (∃ w, h.values.valueClass v = .storeInst w (h.values.globalValue global)) ∧
      h.values.getFunction v ∈ h.partition.partition := by
  unfold isGlobalStore at hv
  split at hv
  · next w pointer hclass =>
    obtain ⟨rfl, hmem⟩ := of_decide_eq_true hv
    exact ⟨⟨w, hclass⟩, hmem⟩
  · cases hv
  · cases hv
  · cases hv

end Lemmas

end GlobalVariableExtractorHelper

end Vazgen
