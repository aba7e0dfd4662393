import Vazgen.Lib.Paths
import Vazgen.Transforms.PartitionExtractor

/-!
# The calls behind a store

The instrumentation again, with the code that it puts behind each store: a load of the global and a
call of its setter for the other side.  The functions of `Inserted` are those of
`GlobalVariableExtractorHelper` on this larger state (`Inserted.instrumentForGlobals_state`).

The loop gets to a store once for each path of data edges to it, and looks at the globals of one
partition only.  So each store is followed by the calls it should be followed by exactly when every
instrumented global is in both partitions and one path leads to each of its stores
(`instrumentedExactly_iff`).
-/

namespace Vazgen

open Worklist

variable {G V N T : Type}

namespace GlobalVariableExtractorHelper

/-! ## Algorithm -/

/-- A load of a global and a call of a function with the loaded value. -/
structure InsertedCall (G : Type) where
  loaded : G
  callee : String
deriving DecidableEq

/-- The members that change, and the code that stands between an instruction and the instruction
that followed it originally. -/
structure CodeState (G V T : Type) where
  state : State G T
  after : V → List (InsertedCall G)

/-- The loop of `addGlobalSetter`; the code is `none` after a failed assertion or cast. -/
structure CodeLoop (G V N T : Type) where
  worklist : List N
  code : Option (CodeState G V T)

/-- The call that is put behind the stores to the global. -/
def setterCall (h : Helper G V N T) (global : G) : InsertedCall G where
  loaded := global
  callee := setterName h.values h.prefixName global

namespace Inserted

variable [DecidableEq G] [DecidableEq T] [DecidableEq V] (h : Helper G V N T)

/-- The insertion point is directly behind the instruction. -/
def addGlobalSetterAfter (s : CodeState G V T) (instr : V) (global : G) :
    Option (CodeState G V T) :=
  (GlobalVariableExtractorHelper.addGlobalSetterAfter h s.state instr global).bind fun st =>
    (st.globalSetter.lookup global).map fun setter =>
      { state := st
        after := Function.update s.after instr
          ({ loaded := global, callee := setter } :: s.after instr) }

def visitNode (global : G) (n : N) (s : CodeState G V T) : Option (CodeState G V T) :=
  if h.pdg.isInstruction n then
    (h.pdg.getNodeValue n).bind fun v =>
      if isGlobalStore h global v then addGlobalSetterAfter h s v global else some s
  else some s

def step (global : G) (s : CodeLoop G V N T) : Option (CodeLoop G V N T) :=
  match s.worklist, s.code with
  | n :: rest, some st =>
    some { worklist := rest ++ reachableNodes h.pdg n, code := visitNode h global n st }
  | _, _ => none

def addGlobalSetter (fuel : Nat) (s : CodeState G V T) (global : G) : Option (CodeState G V T) :=
  match h.pdg.getGlobalVariableNode global with
  | none => some s
  | some n => (whileSome (step h global) fuel { worklist := [n], code := some s }).bind (·.code)

def instrumentForGlobals (order : IterationOrder G) (fuel : Nat) (s : CodeState G V T) :
    Option (CodeState G V T) :=
  (order.list h.partition.partitionGlobals).foldlM (addGlobalSetter h fuel) s

end Inserted

end GlobalVariableExtractorHelper

namespace PartitionExtractorPass

open GlobalVariableExtractorHelper

/-- The helpers of the two calls of `getGlobalSetters` after their runs, and the code behind each
instruction. -/
structure Setters (G V T : Type) where
  enclave : State G T
  app : State G T
  after : V → List (InsertedCall G)

def Setters.helperState (R : Setters G V T) (isEnclave : Bool) : State G T :=
  if isEnclave then R.enclave else R.app

/-- The two calls of `getGlobalSetters` by `runOnModule`. -/
def getGlobalSetters [DecidableEq G] [DecidableEq T] [DecidableEq V] (values : ModuleValues G V T)
    (pdg : PDG String G V N) (order : IterationOrder G) (fuel : Nat) (M : LLVMModule T)
    (secure insecure : Partition String G) : Option (Setters G V T) :=
  (Inserted.instrumentForGlobals (globalsExtractionHelper values pdg secure insecure true) order
    fuel { state := { module := M }, after := fun _ => [] }).bind fun enclave =>
  (Inserted.instrumentForGlobals (globalsExtractionHelper values pdg secure insecure false) order
    fuel { state := { module := enclave.state.module }, after := enclave.after }).map fun app =>
  { enclave := enclave.state, app := app.state, after := app.after }

end PartitionExtractorPass

namespace GlobalVariableExtractorHelper

/-! ## The same run without the inserted code -/

section Projection

variable [DecidableEq G] [DecidableEq T] [DecidableEq V] {h : Helper G V N T} {global : G}

theorem Inserted.addGlobalSetterAfter_state (s : CodeState G V T) (instr : V) :
    (Inserted.addGlobalSetterAfter h s instr global).map (·.state) =
      GlobalVariableExtractorHelper.addGlobalSetterAfter h s.state instr global := by
  unfold Inserted.addGlobalSetterAfter
  cases hst : GlobalVariableExtractorHelper.addGlobalSetterAfter h s.state instr global with
  | none => rfl
  | some st =>
    unfold GlobalVariableExtractorHelper.addGlobalSetterAfter at hst
    obtain ⟨s₁, -, hst⟩ := Option.bind_eq_some_iff.1 hst
    obtain ⟨setter, hsetter, rfl⟩ := Option.map_eq_some_iff.1 hst
    rw [Option.bind_some, hsetter]
    rfl

theorem Inserted.visitNode_state (n : N) (s : CodeState G V T) :
    (Inserted.visitNode h global n s).map (·.state) =
      GlobalVariableExtractorHelper.visitNode h global n s.state := by
  unfold Inserted.visitNode GlobalVariableExtractorHelper.visitNode
  cases h.pdg.isInstruction n with
  | false => rfl
  | true =>
    cases h.pdg.getNodeValue n with
    | none => rfl
    | some v =>
      rw [if_pos rfl, if_pos rfl, Option.bind_some, Option.bind_some]
      cases isGlobalStore h global v with
      | false => rfl
      | true => exact addGlobalSetterAfter_state s v

def CodeLoop.toLoopState (l : CodeLoop G V N T) : LoopState G N T :=
  { worklist := l.worklist, state := l.code.map (·.state) }

theorem Inserted.step_toLoopState (l : CodeLoop G V N T) :
    (Inserted.step h global l).map CodeLoop.toLoopState =
      GlobalVariableExtractorHelper.step h global l.toLoopState := by
  obtain ⟨worklist, code⟩ := l
  cases worklist with
  | nil => rfl
  | cons n rest =>
    cases code with
    | none => rfl
    | some s =>
      unfold Inserted.step GlobalVariableExtractorHelper.step CodeLoop.toLoopState
      dsimp only [Option.map_some]
      rw [Inserted.visitNode_state]

theorem Inserted.addGlobalSetter_state (fuel : Nat) (s : CodeState G V T) :
    (Inserted.addGlobalSetter h fuel s global).map (·.state) =
      GlobalVariableExtractorHelper.addGlobalSetter h fuel s.state global := by
  unfold Inserted.addGlobalSetter GlobalVariableExtractorHelper.addGlobalSetter
  cases h.pdg.getGlobalVariableNode global with
  | none => rfl
  | some n =>
    have hloop : (whileSome (Inserted.step h global) fuel { worklist := [n], code := some s }).map
        CodeLoop.toLoopState =
          whileSome (GlobalVariableExtractorHelper.step h global) fuel
            { worklist := [n], state := some s.state } :=
      whileSome_map Inserted.step_toLoopState fuel _
    dsimp only
    rw [← hloop]
    cases whileSome (Inserted.step h global) fuel { worklist := [n], code := some s } with
    | none => rfl
    | some l => rfl

/-- **The inserted code has no influence on the run.** -/
theorem Inserted.instrumentForGlobals_state (order : IterationOrder G) (fuel : Nat)
    (M : LLVMModule T) (after : V → List (InsertedCall G)) :
    (Inserted.instrumentForGlobals h order fuel { state := { module := M }, after := after }).map
      (·.state) = GlobalVariableExtractorHelper.instrumentForGlobals h order fuel M := by
  have hfold : ∀ (gs : List G) (s : CodeState G V T),
      (gs.foldlM (Inserted.addGlobalSetter h fuel) s).map (·.state) =
        gs.foldlM (GlobalVariableExtractorHelper.addGlobalSetter h fuel) s.state := by
    intro gs
    induction gs with
    | nil => exact fun s => rfl
    | cons g gs ih =>
      intro s
      rw [List.foldlM_cons, List.foldlM_cons, ← Inserted.addGlobalSetter_state]
      cases Inserted.addGlobalSetter h fuel s g with
      | none => rfl
      | some s' => exact ih s'
  exact hfold _ _

end Projection

/-! ## The calls of one loop -/

/-- A store to the global, in a function of the partition, that exactly one path of data edges from
the global's node leads to. -/
def ReachesStoreOnce [DecidableEq V] (h : Helper G V N T) (global : G) (v : V) : Prop :=
  ∃ root, h.pdg.getGlobalVariableNode global = some root ∧
    UniquePath (reachableNodes h.pdg) root fun n => StoreAt h global n v

instance [DecidableEq V] (h : Helper G V N T) (global : G) (n : N) (v : V) :
    Decidable (StoreAt h global n v) :=
  inferInstanceAs (Decidable (_ ∧ _ ∧ _))

/-- The setters that have been made are functions of the module, under their own names. -/
def Named (h : Helper G V N T) (s : State G T) : Prop :=
  ∀ g f, (g, f) ∈ s.globalSetter →
    f = setterName h.values h.prefixName g ∧ f ∈ s.module.functions

/-- The setters that have been made are those that are called. -/
structure Consistent (h : Helper G V N T) (M : LLVMModule T) (s : CodeState G V T) : Prop where
  named : Named h s.state
  called : ∀ g, (∃ f, (g, f) ∈ s.state.globalSetter) ↔ ∃ v, setterCall h g ∈ s.after v
  functions : ∀ f ∈ M.functions, f ∈ s.state.module.functions

/-- The paths `done` of the loop for the global have been followed, and a call stands behind a store
for each of them that leads to it. -/
def CallsCover [DecidableEq V] (h : Helper G V N T) (M : LLVMModule T) (global : G) (root : N)
    (s : CodeState G V T) (l : CodeLoop G V N T) : Prop :=
  ∃ done pending, PathCover (reachableNodes h.pdg) root done pending ∧
    pending.map (follow (reachableNodes h.pdg) root) = l.worklist.map some ∧
    ∀ st, l.code = some st → Consistent h M st ∧ ∀ v, st.after v =
      List.replicate (pathsTo (fun n => StoreAt h global n v) (reachableNodes h.pdg) root done)
        (setterCall h global) ++ s.after v

section Lemmas

variable [DecidableEq G] [DecidableEq T] {h : Helper G V N T} {M : LLVMModule T} {global : G}

/-- What instrumenting a store does to the setters. -/
theorem Named.addGlobalSetterAfter {s s' : State G T} (hs : Named h s) {v : V}
    (hst : addGlobalSetterAfter h s v global = some s') :
    Named h s' ∧ s'.globalSetter.lookup global = some (setterName h.values h.prefixName global) ∧
      (∀ g, (∃ f, (g, f) ∈ s'.globalSetter) ↔ (∃ f, (g, f) ∈ s.globalSetter) ∨ g = global) ∧
      ∀ f ∈ s.module.functions, f ∈ s'.module.functions := by
  unfold GlobalVariableExtractorHelper.addGlobalSetterAfter at hst
  obtain ⟨s₁, hs₁, hst⟩ := Option.bind_eq_some_iff.1 hst
  obtain ⟨setter, hsetter, rfl⟩ := Option.map_eq_some_iff.1 hst
  cases hl : s.globalSetter.lookup global with
  | some f =>
    rw [hl] at hs₁
    cases hs₁
    obtain ⟨before, behind, heq, -⟩ := List.lookup_eq_some_iff.1 hl
    have hmem : (global, f) ∈ s.globalSetter := by rw [heq]; simp
    refine ⟨hs, by rw [hl, (hs global f hmem).1], fun g => ?_, fun f hf => hf⟩
    rw [or_iff_left_of_imp]
    rintro rfl
    exact ⟨f, hmem⟩
  | none =>
    rw [hl] at hs₁
    unfold createGlobalSetterFunction at hs₁
    obtain ⟨M', hM', rfl⟩ := Option.map_eq_some_iff.1 hs₁
    have hfunctions := LLVMModule.mem_functions_getOrInsertFunction hM'
    refine ⟨fun g f hmem => ?_, by simp [List.lookup_append, hl], fun g => ?_,
      fun f hf => (hfunctions f).2 (.inl hf)⟩
    · rcases List.mem_append.1 hmem with hmem | hmem
      · exact ⟨(hs g f hmem).1, (hfunctions f).2 (.inl (hs g f hmem).2)⟩
      · rw [List.mem_singleton] at hmem
        cases hmem
        exact ⟨rfl, (hfunctions _).2 (.inr rfl)⟩
    · simp [exists_or]

omit [DecidableEq G] [DecidableEq T] in
theorem setterCall_injective : Function.Injective (setterCall h) := fun _ _ heq =>
  congrArg InsertedCall.loaded heq

variable [DecidableEq V] {s s' : CodeState G V T}

/-- **Instrumenting one store** puts a call of the setter directly behind it. -/
theorem Consistent.addGlobalSetterAfter (hs : Consistent h M s) {v : V}
    (hst : Inserted.addGlobalSetterAfter h s v global = some s') :
    Consistent h M s' ∧ s'.after = Function.update s.after v (setterCall h global :: s.after v) := by
  unfold Inserted.addGlobalSetterAfter at hst
  obtain ⟨st, hstate, hst⟩ := Option.bind_eq_some_iff.1 hst
  obtain ⟨setter, hsetter, rfl⟩ := Option.map_eq_some_iff.1 hst
  obtain ⟨hnamed, hlookup, hmade, hfunctions⟩ := hs.named.addGlobalSetterAfter hstate
  rw [hlookup] at hsetter
  cases hsetter
  have hafter : ∀ g w,
      setterCall h g ∈ Function.update s.after v (setterCall h global :: s.after v) w ↔
        setterCall h g ∈ s.after w ∨ w = v ∧ g = global := by
    intro g w
    by_cases hwv : w = v
    · subst hwv
      rw [Function.update_self, List.mem_cons, setterCall_injective.eq_iff]
      simp [or_comm]
    · rw [Function.update_of_ne hwv]
      simp [hwv]
  refine ⟨⟨hnamed, fun g => ?_, fun f hf => hfunctions f (hs.functions f hf)⟩, rfl⟩
  rw [hmade, hs.called]
  show _ ↔ ∃ w, setterCall h g ∈ Function.update s.after v (setterCall h global :: s.after v) w
  simp only [hafter, exists_or, exists_eq_left]

theorem Consistent.visitNode (hs : Consistent h M s) {n : N}
    (hst : Inserted.visitNode h global n s = some s') :
    Consistent h M s' ∧ ∀ v, s'.after v =
      if StoreAt h global n v then setterCall h global :: s.after v else s.after v := by
  unfold Inserted.visitNode at hst
  have hnone : (∀ v, ¬ StoreAt h global n v) → ∀ v, s.after v =
      if StoreAt h global n v then setterCall h global :: s.after v else s.after v :=
    fun hno v => (if_neg (hno v)).symm
  split at hst
  · next hn =>
    obtain ⟨w, hw, hst⟩ := Option.bind_eq_some_iff.1 hst
    split at hst
    · next hstore =>
      obtain ⟨hs', hafter⟩ := hs.addGlobalSetterAfter hst
      refine ⟨hs', fun v => ?_⟩
      by_cases hv : v = w
      · subst hv
        rw [if_pos ⟨hn, hw, hstore⟩, hafter, Function.update_self]
      · rw [if_neg, hafter, Function.update_of_ne hv]
        rintro ⟨-, hv', -⟩
        rw [hw] at hv'
        cases hv'
        exact hv rfl
    · next hstore =>
      cases hst
      refine ⟨hs, hnone ?_⟩
      rintro v ⟨-, hv, hv'⟩
      rw [hw] at hv
      cases hv
      exact hstore hv'
  · next hn =>
    cases hst
    exact ⟨hs, hnone fun v hv => hn hv.1⟩

theorem CallsCover.step {root : N} {l l' : CodeLoop G V N T}
    (hl : CallsCover h M global root s l) (hst : Inserted.step h global l = some l') :
    CallsCover h M global root s l' := by
  obtain ⟨done, pending, hcover, hwork, hcode⟩ := hl
  unfold Inserted.step at hst
  split at hst
  · next n rest st hw hsome =>
    cases hst
    rw [hw, List.map_cons] at hwork
    obtain ⟨p, ps, rfl, hp, hps⟩ := List.map_eq_cons_iff.1 hwork
    refine ⟨done ++ [p], _, hcover.expand hp, ?_, fun st' hst' => ?_⟩
    · rw [List.map_append, List.map_append, hps, map_follow_extensions hp]
    · obtain ⟨hst, hafter⟩ := hcode st hsome
      obtain ⟨hst', hafter'⟩ := hst.visitNode hst'
      refine ⟨hst', fun v => ?_⟩
      rw [hafter', hafter, pathsTo_concat _ _ hp]
      split
      · rw [List.replicate_succ, List.cons_append]
      · rw [Nat.add_zero]
  · cases hst

/-- **What the loop of `addGlobalSetter` puts behind a store**: as many calls as paths lead to the
store. -/
theorem Consistent.addGlobalSetter (hs : Consistent h M s) {fuel : Nat}
    (hst : Inserted.addGlobalSetter h fuel s global = some s') :
    Consistent h M s' ∧ ∀ v, ∃ k, s'.after v = List.replicate k (setterCall h global) ++ s.after v ∧
      (0 < k ↔ ReachesStore h global v) ∧ (k = 1 ↔ ReachesStoreOnce h global v) := by
  unfold Inserted.addGlobalSetter at hst
  split at hst
  · next hroot =>
    cases hst
    refine ⟨hs, fun v => ⟨0, rfl, iff_of_false (lt_irrefl 0) ?_, iff_of_false Nat.zero_ne_one ?_⟩⟩
    · rintro ⟨root, hsome, -⟩
      rw [hroot] at hsome
      cases hsome
    · rintro ⟨root, hsome, -⟩
      rw [hroot] at hsome
      cases hsome
  · next root hroot =>
    obtain ⟨t, ht, hcode⟩ := Option.bind_eq_some_iff.1 hst
    have hstart : CallsCover h M global root s { worklist := [root], code := some s } := by
      refine ⟨[], [[]], pathCover_start, rfl, fun st hst => ?_⟩
      cases hst
      exact ⟨hs, fun v => rfl⟩
    obtain ⟨⟨done, pending, hcover, hwork, hafter⟩, hend⟩ :=
      whileSome_induct (fun l l' hl _ hst => hl.step hst) fuel _ t hstart ht
    have hempty : pending = [] := by
      unfold Inserted.step at hend
      split at hend
      · cases hend
      · next hno =>
        cases hw : t.worklist with
        | nil =>
          rw [hw] at hwork
          exact List.map_eq_nil_iff.1 hwork
        | cons n rest => exact (hno n rest s' hw hcode).elim
    subst hempty
    obtain ⟨hs', hafter⟩ := hafter s' hcode
    refine ⟨hs', fun v => ⟨_, hafter v, ?_, ?_⟩⟩
    · rw [hcover.pathsTo_pos_iff]
      constructor
      · rintro ⟨n, hn, hstore⟩
        exact ⟨root, hroot, n, (Marking.reach_singleton_iff fun _ => rfl).2 hn, hstore⟩
      · rintro ⟨root', hroot', n, hn, hstore⟩
        rw [hroot] at hroot'
        cases hroot'
        exact ⟨n, (Marking.reach_singleton_iff fun _ => rfl).1 hn, hstore⟩
    · rw [hcover.pathsTo_eq_one_iff]
      constructor
      · exact fun hunique => ⟨root, hroot, hunique⟩
      · rintro ⟨root', hroot', hunique⟩
        rw [hroot] at hroot'
        cases hroot'
        exact hunique

/-- What the loops for the globals `gs` have put behind the stores. -/
structure CallsAdded (h : Helper G V N T) (gs : List G) (s s' : CodeState G V T) : Prop where
  own : ∀ g v, ∃ k, (s'.after v).count (setterCall h g) = k + (s.after v).count (setterCall h g) ∧
    (0 < k ↔ g ∈ gs ∧ ReachesStore h g v) ∧ (k = 1 ↔ g ∈ gs ∧ ReachesStoreOnce h g v)
  other : ∀ c v, (∀ g, c ≠ setterCall h g) → (s'.after v).count c = (s.after v).count c

theorem Consistent.foldlM_addGlobalSetter {fuel : Nat} {gs : List G} (hgs : gs.Nodup)
    (hs : Consistent h M s) (hst : gs.foldlM (Inserted.addGlobalSetter h fuel) s = some s') :
    Consistent h M s' ∧ CallsAdded h gs s s' := by
  induction gs generalizing s with
  | nil =>
    cases hst
    exact ⟨hs, fun g v => ⟨0, by simp⟩, fun _ _ _ => rfl⟩
  | cons g gs ih =>
    rw [List.foldlM_cons] at hst
    obtain ⟨s₁, hs₁, hst⟩ := Option.bind_eq_some_iff.1 hst
    obtain ⟨hg, hgs⟩ := List.nodup_cons.1 hgs
    obtain ⟨hs₁, hafter⟩ := hs.addGlobalSetter hs₁
    obtain ⟨hs', hmore⟩ := ih hgs hs₁ hst
    refine ⟨hs', fun g' v => ?_, fun c v hc => ?_⟩
    · obtain ⟨k, hk, hpos, hone⟩ := hafter v
      obtain ⟨m, hm, hmpos, hmone⟩ := hmore.own g' v
      by_cases hg' : g' = g
      · subst hg'
        have hzero : m = 0 := Nat.eq_zero_of_not_pos fun h => hg (hmpos.1 h).1
        refine ⟨k, ?_, by simpa using hpos, by simpa using hone⟩
        rw [hm, hk, hzero, List.count_append, List.count_replicate_self, Nat.zero_add]
      · have hne : setterCall h g ≠ setterCall h g' := fun heq => hg' (setterCall_injective heq).symm
        refine ⟨m, ?_, by simpa [hg'] using hmpos, by simpa [hg'] using hmone⟩
        rw [hm, hk, List.count_append, List.count_replicate, if_neg (by simpa using hne),
          Nat.zero_add]
    · obtain ⟨k, hk, -⟩ := hafter v
      rw [hmore.other c v hc, hk, List.count_append, List.count_replicate,
        if_neg (by simpa using (hc g).symm), Nat.zero_add]

/-- **What one call of `getGlobalSetters` puts behind the stores.** -/
theorem Consistent.instrumentForGlobals {order : IterationOrder G} {fuel : Nat}
    (hs : Consistent h M s) (hst : Inserted.instrumentForGlobals h order fuel s = some s') :
    Consistent h M s' ∧ CallsAdded h (order.list h.partition.partitionGlobals) s s' :=
  hs.foldlM_addGlobalSetter (order.nodup _) hst

end Lemmas

end GlobalVariableExtractorHelper

namespace PartitionExtractorPass

open GlobalVariableExtractorHelper

/-! ## Both sides -/

/-- A setter of the global for the side has been made and is a function of the module. -/
def Setters.HasSetter (R : Setters G V T) (isEnclave : Bool) (global : G) : Prop :=
  ∃ f, (global, f) ∈ (R.helperState isEnclave).globalSetter ∧ f ∈ R.app.module.functions

section Model

variable [DecidableEq G] [DecidableEq V] (values : ModuleValues G V T) (pdg : PDG String G V N)
  (secure insecure : Partition String G)

/-- Every store that is reached is followed by one call of the other side's setter if the global is
in both partitions, and by none otherwise; the setters that are called exist, and no others. -/
structure InstrumentedExactly (R : Setters G V T) : Prop where
  calls : ∀ isEnclave g v,
    ReachesStore (globalsExtractionHelper values pdg secure insecure isEnclave) g v →
      (R.after v).count (setterCall (globalsExtractionHelper values pdg secure insecure isEnclave) g)
        = if g ∈ secure.partitionGlobals ∧ g ∈ insecure.partitionGlobals then 1 else 0
  setters : ∀ isEnclave g, R.HasSetter isEnclave g ↔
    ∃ v, setterCall (globalsExtractionHelper values pdg secure insecure isEnclave) g ∈ R.after v

/-- A global of a side to which a store of the side is reached is in both partitions, and one path
leads to each of these stores. -/
def SharedAndReachedOnce : Prop :=
  ∀ isEnclave, ∀ h : Helper G V N T,
    h = globalsExtractionHelper values pdg secure insecure isEnclave →
      ∀ g ∈ h.partition.partitionGlobals, ∀ v, ReachesStore h g v →
        g ∈ secure.partitionGlobals ∧ g ∈ insecure.partitionGlobals ∧ ReachesStoreOnce h g v

end Model

/-- What the call of `getGlobalSetters` for one side leaves behind. -/
structure SideInstrumented [DecidableEq G] [DecidableEq V] (h : Helper G V N T) (isEnclave : Bool)
    (R : Setters G V T) : Prop where
  setters : ∀ g, R.HasSetter isEnclave g ↔ ∃ v, setterCall h g ∈ R.after v
  called_iff : ∀ g v, 0 < (R.after v).count (setterCall h g) ↔
    g ∈ h.partition.partitionGlobals ∧ ReachesStore h g v
  once_iff : ∀ g v, (R.after v).count (setterCall h g) = 1 ↔
    g ∈ h.partition.partitionGlobals ∧ ReachesStoreOnce h g v

section Top

variable [DecidableEq G] [DecidableEq T] [DecidableEq V] {values : ModuleValues G V T}
  {pdg : PDG String G V N} {order : IterationOrder G} {fuel : Nat} {M : LLVMModule T}
  {secure insecure : Partition String G} {R : Setters G V T}

/-- **Neither run disturbs what the other puts behind the stores.** -/
theorem sideInstrumented (hrun : getGlobalSetters values pdg order fuel M secure insecure = some R)
    (isEnclave : Bool) :
    SideInstrumented (globalsExtractionHelper values pdg secure insecure isEnclave) isEnclave R := by
  let henclave := globalsExtractionHelper values pdg secure insecure true
  let happ := globalsExtractionHelper values pdg secure insecure false
  unfold getGlobalSetters at hrun
  obtain ⟨enclave, hruns, hrun⟩ := Option.bind_eq_some_iff.1 hrun
  obtain ⟨app, hruns', rfl⟩ := Option.map_eq_some_iff.1 hrun
  have hstart : Consistent henclave M { state := { module := M }, after := fun _ => [] } :=
    ⟨fun g f hmem => (List.not_mem_nil hmem).elim, fun g => by simp, fun f hf => hf⟩
  obtain ⟨hfirst, hadded⟩ := hstart.instrumentForGlobals hruns
  have hdiffer : ∀ g g', setterCall happ g ≠ setterCall henclave g' := fun g g' heq =>
    setterName_app_ne_enclave values g g' (congrArg InsertedCall.callee heq)
  -- no call of the second run stands in the code after the first
  have hnone : ∀ g v, (enclave.after v).count (setterCall happ g) = 0 := fun g v =>
    hadded.other _ v (hdiffer g)
  have hstart' : Consistent happ enclave.state.module
      { state := { module := enclave.state.module }, after := enclave.after } := by
    refine ⟨fun g f hmem => (List.not_mem_nil hmem).elim, fun g => ?_, fun f hf => hf⟩
    refine iff_of_false (fun h => by simp at h) ?_
    rintro ⟨v, hv⟩
    exact List.count_eq_zero.1 (hnone g v) hv
  obtain ⟨hsecond, hadded'⟩ := hstart'.instrumentForGlobals hruns'
  cases isEnclave with
  | true =>
    have hcount : ∀ g v, (app.after v).count (setterCall henclave g) =
        (enclave.after v).count (setterCall henclave g) := fun g v =>
      hadded'.other _ v fun g' => (hdiffer g' g).symm
    refine ⟨fun g => ?_, fun g v => ?_, fun g v => ?_⟩
    · have hmem : ∀ v, setterCall henclave g ∈ app.after v ↔ setterCall henclave g ∈ enclave.after v :=
        fun v => by rw [← List.count_pos_iff, hcount, List.count_pos_iff]
      refine Iff.trans ?_ ((hfirst.called g).trans (exists_congr fun v => (hmem v).symm))
      exact ⟨fun ⟨f, hf, _⟩ => ⟨f, hf⟩,
        fun ⟨f, hf⟩ => ⟨f, hf, hsecond.functions f (hfirst.named g f hf).2⟩⟩
    · obtain ⟨k, hk, hpos, -⟩ := hadded.own g v
      rw [order.mem] at hpos
      rw [← hpos, hcount, hk]
      rfl
    · obtain ⟨k, hk, -, hone⟩ := hadded.own g v
      rw [order.mem] at hone
      rw [← hone, hcount, hk]
      rfl
  | false =>
    refine ⟨fun g => ?_, fun g v => ?_, fun g v => ?_⟩
    · refine Iff.trans ?_ (hsecond.called g)
      exact ⟨fun ⟨f, hf, _⟩ => ⟨f, hf⟩, fun ⟨f, hf⟩ => ⟨f, hf, (hsecond.named g f hf).2⟩⟩
    · obtain ⟨k, hk, hpos, -⟩ := hadded'.own g v
      rw [order.mem] at hpos
      rw [← hpos, hk, hnone, Nat.add_zero]
    · obtain ⟨k, hk, -, hone⟩ := hadded'.own g v
      rw [order.mem] at hone
      rw [← hone, hk, hnone, Nat.add_zero]

theorem sharedAndReachedOnce_of_instrumentedExactly
    (hrun : getGlobalSetters values pdg order fuel M secure insecure = some R)
    (hexact : InstrumentedExactly values pdg secure insecure R) :
    SharedAndReachedOnce values pdg secure insecure := by
  rintro isEnclave h rfl g hg v hv
  have hside := sideInstrumented hrun isEnclave
  have hcount := hexact.calls isEnclave g v hv
  have hpos := (hside.called_iff g v).2 ⟨hg, hv⟩
  split at hcount
  · next hshared =>
    exact ⟨hshared.1, hshared.2, ((hside.once_iff g v).1 hcount).2⟩
  · rw [hcount] at hpos
    exact absurd hpos (lt_irrefl 0)

theorem instrumentedExactly_of_sharedAndReachedOnce
    (hrun : getGlobalSetters values pdg order fuel M secure insecure = some R)
    (honce : SharedAndReachedOnce values pdg secure insecure) :
    InstrumentedExactly values pdg secure insecure R := by
  refine ⟨fun isEnclave g v hv => ?_, fun isEnclave => (sideInstrumented hrun isEnclave).setters⟩
  have hside := sideInstrumented hrun isEnclave
  split
  · next hshared =>
    have hg : g ∈ (globalsExtractionHelper values pdg secure insecure
        isEnclave).partition.partitionGlobals := by
      cases isEnclave with
      | true => exact hshared.2
      | false => exact hshared.1
    exact (hside.once_iff g v).2 ⟨hg, (honce isEnclave _ rfl g hg v hv).2.2⟩
  · next hshared =>
    refine Nat.eq_zero_of_not_pos fun hpos => hshared ?_
    obtain ⟨hg, hv⟩ := (hside.called_iff g v).1 hpos
    obtain ⟨hsecure, hinsecure, -⟩ := honce isEnclave _ rfl g hg v hv
    exact ⟨hsecure, hinsecure⟩

/-- **Exact instrumentation.**  The stores are followed by the calls that keep the two copies of a
shared global in step, and by no others, exactly when every instrumented global is shared and each
of its stores is at the end of one path. -/
theorem instrumentedExactly_iff
    (hrun : getGlobalSetters values pdg order fuel M secure insecure = some R) :
    InstrumentedExactly values pdg secure insecure R ↔
      SharedAndReachedOnce values pdg secure insecure :=
  ⟨sharedAndReachedOnce_of_instrumentedExactly hrun,
    instrumentedExactly_of_sharedAndReachedOnce hrun⟩

end Top

/-! ## A running total -/

/-- The global `total`, and two loads and a store of it. -/
inductive TotalNode
  | total
  | left
  | right
  | store
deriving DecidableEq

def totalValues : ModuleValues Unit TotalNode Unit where
  globals := [()]
  getGlobalName _ := "total"
  initializer _ := []
  setterType _ := ()
  globalValue _ := .total
  valueClass v := if v = .store then .storeInst .left .total else .other
  getFunction _ := "update"

def totalModule : LLVMModule Unit where
  functions := ["update", "report"]
  getFunctionType _ := ()
  isDeclaration _ := false
  callees f := if f = "report" then ["update"] else []
  operands _ := []

/-- In `total = total + total` the store depends on two loads; in `total = 0` on none. -/
def totalPDG (doubled : Bool) : PDG String Unit TotalNode TotalNode where
  kind n := if n = .total then .globalVariable else .instruction "update"
  isLLVMNode _ := true
  getNodeValue n := some n
  getParent n := if n = .total then none else some "update"
  isPointerArgOperand _ := false
  outEdges n := match n with
    | .total =>
      if doubled then
        [{ getSource := .total, getDestination := .left, isControlEdge := false },
         { getSource := .total, getDestination := .right, isControlEdge := false }]
      else [{ getSource := .total, getDestination := .store, isControlEdge := false }]
    | .left => [{ getSource := .left, getDestination := .store, isControlEdge := false }]
    | .right => [{ getSource := .right, getDestination := .store, isControlEdge := false }]
    | .store => []
  inEdges _ := []
  hasFunctionPDG _ := true
  getCallSites _ := []
  llvmNodes _ := []
  getNode _ v := some v
  getFormalArgNode _ _ := none
  getGlobalVariableNode _ := some .total

/-- The secure side updates the total. -/
def totalSecure : Partition String Unit where
  partition := {"update"}
  partitionGlobals := {()}

def totalInsecure (globals : Finset Unit) : Partition String Unit where
  partition := {"report"}
  partitionGlobals := globals

def totalRun (doubled : Bool) (globals : Finset Unit) :
    Option (Setters Unit TotalNode Unit) :=
  getGlobalSetters totalValues (totalPDG doubled) .unit 6 totalModule totalSecure
    (totalInsecure globals)

/-- The call of the setter for the insecure side. -/
def totalCall : InsertedCall Unit := { loaded := (), callee := "set_app_total" }

theorem totalCall_eq (doubled : Bool) (globals : Finset Unit) :
    setterCall (globalsExtractionHelper totalValues (totalPDG doubled) totalSecure
      (totalInsecure globals) false) () = totalCall := by
  unfold setterCall setterName totalCall
  simp [globalsExtractionHelper, totalValues]

theorem totalStore_reached (doubled : Bool) (globals : Finset Unit) :
    ReachesStore (globalsExtractionHelper totalValues (totalPDG doubled) totalSecure
      (totalInsecure globals) false) () .store := by
  have hstore : isGlobalStore (globalsExtractionHelper totalValues (totalPDG doubled) totalSecure
      (totalInsecure globals) false) () .store = true := by
    simp [isGlobalStore, globalsExtractionHelper, totalValues, totalSecure]
  refine ⟨.total, rfl, .store, ?_, rfl, rfl, hstore⟩
  rw [Marking.reach_singleton_iff fun _ => rfl]
  cases doubled with
  | true => exact .tail (.single (List.mem_cons_self (a := TotalNode.left))) List.mem_cons_self
  | false => exact .single List.mem_cons_self

/-- Two calls stand behind the store of `total = total + total`, and one behind that of `total = 0`
when the insecure side does not use the total. -/
theorem total_not_instrumentedExactly :
    (∃ R, totalRun true {()} = some R ∧ (R.after .store).count totalCall = 2 ∧
      ¬ InstrumentedExactly totalValues (totalPDG true) totalSecure (totalInsecure {()}) R) ∧
    ∃ R, totalRun false ∅ = some R ∧ (R.after .store).count totalCall = 1 ∧
      ¬ InstrumentedExactly totalValues (totalPDG false) totalSecure (totalInsecure ∅) R := by
  have hdoubled : (totalRun true {()}).map (fun R => (R.after .store).count totalCall) = some 2 := by
    decide
  have honce : (totalRun false ∅).map (fun R => (R.after .store).count totalCall) = some 1 := by
    decide
  obtain ⟨R, hR, hcount⟩ := Option.map_eq_some_iff.1 hdoubled
  obtain ⟨R', hR', hcount'⟩ := Option.map_eq_some_iff.1 honce
  refine ⟨⟨R, hR, hcount, fun hexact => ?_⟩, R', hR', hcount', fun hexact => ?_⟩
  · have hcalls := hexact.calls false () .store (totalStore_reached true {()})
    rw [totalCall_eq, hcount, if_pos (by decide)] at hcalls
    exact absurd hcalls (by decide)
  · have hcalls := hexact.calls false () .store (totalStore_reached false ∅)
    rw [totalCall_eq, hcount', if_neg (by decide)] at hcalls
    exact absurd hcalls (by decide)

/-- The store of `total = 0` to a shared total. -/
theorem totalReset_instrumentedExactly :
    ∃ R, totalRun false {()} = some R ∧
      InstrumentedExactly totalValues (totalPDG false) totalSecure (totalInsecure {()}) R := by
  obtain ⟨R, hR⟩ := Option.isSome_iff_exists.1 (by decide : (totalRun false {()}).isSome = true)
  refine ⟨R, hR, (instrumentedExactly_iff hR).2 ?_⟩
  rintro isEnclave h rfl g - v ⟨_, -, n, -, -, hn, hstore⟩
  refine ⟨Finset.mem_singleton_self (), Finset.mem_singleton_self (), .total, rfl, ?_⟩
  obtain ⟨⟨w, hclass⟩, hmem⟩ := isGlobalStore_spec hstore
  cases isEnclave with
  | true => exact absurd hmem (by decide : ¬ "update" ∈ ({"report"} : Finset String))
  | false =>
    have hv : v = .store := by
      cases v with
      | store => rfl
      | total | left | right => cases hclass
    subst hv
    refine ⟨[0], ⟨.store, rfl, rfl, rfl, hstore⟩, ?_⟩
    rintro p ⟨m, hm, -, hvalue, -⟩
    cases hvalue
    -- the only edge leads to the store, which has no successors
    match p, hm with
    | [0], _ => rfl

end PartitionExtractorPass

end Vazgen
