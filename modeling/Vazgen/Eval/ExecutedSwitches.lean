import Vazgen.Eval.ShadowCallStackFile
import Vazgen.Eval.ShadowCallStackRun
import Vazgen.Lib.Tally

/-!
# The context switches of a run

From an instrumented run to the numbers that are published: the run leaves the file of its shadow call
stack, the analysis leaves its statistics, and the script counts the entries of the one that cross the
partitions of the other.

**`contextSwitches_eq_executed`**: it counts the executed calls between the two partitions.
-/

namespace Vazgen

variable {F G V N R : Type}

open ShadowCallStackGenerator MachineInt

namespace ShadowCallStack

/-! ## Which counters are in use -/

variable {P : Program F} {f g : F}

/-- The entry that an event is counted in. -/
def entryOfEvent (P : Program F) : Event F → Option CallStackEntry
  | .directCall f g => if P.isIntrinsic g then none else some ⟨P.getName f, P.getName g⟩
  | .otherEntry g =>
    if P.isDeclaration g ∨ P.getName g = "main" then none else some ⟨"external", P.getName g⟩

theorem entryOfEvent_inj (hP : Named P) {event event' : Event F} {e : CallStackEntry}
    (h : entryOfEvent P event = some e) (h' : entryOfEvent P event' = some e) : event = event' := by
  have hinj : ∀ f g, P.getName f = P.getName g → f = g := fun f g hname =>
    P.getName_inj f g hname (hP f).1
  cases event with
  | directCall f g =>
    cases event' with
    | directCall f' g' =>
      simp only [entryOfEvent, Option.ite_none_left_eq_some, Option.some.injEq] at h h'
      obtain ⟨hf, hg⟩ := CallStackEntry.mk.inj (h.2.trans h'.2.symm)
      rw [hinj _ _ hf, hinj _ _ hg]
    | otherEntry g' =>
      simp only [entryOfEvent, Option.ite_none_left_eq_some, Option.some.injEq] at h h'
      exact absurd (CallStackEntry.mk.inj (h.2.trans h'.2.symm)).1 (hP f).2
  | otherEntry g =>
    cases event' with
    | directCall f' g' =>
      simp only [entryOfEvent, Option.ite_none_left_eq_some, Option.some.injEq] at h h'
      exact absurd (CallStackEntry.mk.inj (h'.2.trans h.2.symm)).1 (hP f').2
    | otherEntry g' =>
      simp only [entryOfEvent, Option.ite_none_left_eq_some, Option.some.injEq] at h h'
      rw [hinj _ _ (CallStackEntry.mk.inj (h.2.trans h'.2.symm)).2]

/-- The code of a frame comes from the body of its function. -/
def Frame.InBody (P : Program F) : Frame F → Prop
  | .external => True
  | .defined f code => ∀ i ∈ code, ∃ block ∈ P.body f, i ∈ block

section Bodies

variable {stack below : List (Frame F)} {shadow : ShadowCallStack} {t : State F}
  {new : List (Event F)} {c : Choice F}

theorem inBody_newFrame (P : Program F) (g : F) : (newFrame P g).InBody P := by
  unfold newFrame
  split
  · trivial
  · next entry blocks hbody =>
    exact fun i hi => ⟨entry, by rw [hbody]; exact List.mem_cons_self, hi⟩

theorem inBody_enteredFrame (P : Program F) (target : Option F) :
    (enteredFrame P target).InBody P := by
  cases target with
  | none => trivial
  | some g => exact inBody_newFrame P g

theorem inBody_resume {block position : Nat} {code : List (Inst F)}
    (h : resume P f block position = some code) : (Frame.defined f code).InBody P := by
  intro i hi
  cases position with
  | zero =>
    rw [resume] at h
    split at h
    · cases h
    · exact ⟨code, List.mem_of_getElem? h, hi⟩
  | succ position =>
    rw [resume] at h
    split at h
    · next g rest hdrop =>
      cases h
      have hmem : i ∈ (P.body f)[block]?.getD [] :=
        List.mem_of_mem_drop (hdrop ▸ List.mem_cons_of_mem _ hi)
      cases hblock : (P.body f)[block]? with
      | none =>
        rw [hblock] at hmem
        cases hmem
      | some found =>
        rw [hblock] at hmem
        exact ⟨found, List.mem_of_getElem? hblock, hmem⟩
    · cases h

/-- All frames are in their bodies, and no counter is changed. -/
structure Kept (P : Program F) (shadow : ShadowCallStack) (t : State F) : Prop where
  stack : ∀ frame ∈ t.stack, frame.InBody P
  counters : t.shadow.callStackEntryNum = shadow.callStackEntryNum

/-- Unwinding resumes a frame. -/
theorem unwind_kept {block position : Nat}
    (h : unwind P shadow block position below = some (t, new))
    (hbelow : ∀ frame ∈ below, frame.InBody P) : Kept P shadow t := by
  unfold unwind at h
  split at h
  · cases h
  · cases h
    exact ⟨hbelow, rfl⟩
  · split at h
    · cases h
    · next hresume =>
      cases h
      have hrest := (List.forall_mem_cons.1 hbelow).2
      exact ⟨List.forall_mem_cons.2 ⟨inBody_resume hresume, hrest⟩, rfl⟩

theorem stepExternal_kept (h : stepExternal P below shadow c = some (t, new))
    (hbelow : ∀ frame ∈ below, frame.InBody P) : Kept P shadow t := by
  cases c with
  | next =>
    rw [stepExternal] at h
    split at h
    · cases h
    · cases h
      exact ⟨hbelow, rfl⟩
  | jump block => cases h
  | enter target =>
    cases h
    have hexternal : ∀ frame ∈ .external :: below, frame.InBody P :=
      List.forall_mem_cons.2 ⟨trivial, hbelow⟩
    exact ⟨List.forall_mem_cons.2 ⟨inBody_enteredFrame P target, hexternal⟩, rfl⟩
  | unwind depth block position =>
    exact unwind_kept h fun frame hframe => hbelow frame (List.mem_of_mem_drop hframe)

theorem stepEnd_kept (h : stepEnd P f below shadow c = some (t, new))
    (hbelow : ∀ frame ∈ below, frame.InBody P) : Kept P shadow t := by
  cases c with
  | next =>
    cases h
    exact ⟨hbelow, rfl⟩
  | jump block =>
    rw [stepEnd] at h
    split at h
    · cases h
    · next hresume =>
      cases h
      exact ⟨List.forall_mem_cons.2 ⟨inBody_resume hresume, hbelow⟩, rfl⟩
  | enter target => cases h
  | unwind depth block position =>
    exact unwind_kept h fun frame hframe => hbelow frame (List.mem_of_mem_drop hframe)

/-- An instruction adds a frame at most, and but for `addCallee` keeps the counters. -/
theorem stepInstruction_kept {code : List (Inst F)} {i : Inst F}
    (h : stepInstruction P f code below shadow i c = some (t, new))
    (hrest : ∀ frame ∈ .defined f code :: below, frame.InBody P) :
    (∀ frame ∈ t.stack, frame.InBody P) ∧
      (t.shadow.callStackEntryNum = shadow.callStackEntryNum ∨
        ∃ name, i = .addCallee name ∧ t.shadow = shadow.addCallee name) := by
  cases i with
  | other =>
    cases c with
    | next =>
      cases h
      exact ⟨hrest, .inl rfl⟩
    | _ => cases h
  | addCaller name =>
    cases c with
    | next =>
      cases h
      exact ⟨hrest, .inl rfl⟩
    | _ => cases h
  | addCallee name =>
    cases c with
    | next =>
      cases h
      exact ⟨hrest, .inr ⟨name, rfl, rfl⟩⟩
    | _ => cases h
  | call g =>
    cases c with
    | next =>
      cases h
      exact ⟨List.forall_mem_cons.2 ⟨inBody_newFrame P g, hrest⟩, .inl rfl⟩
    | _ => cases h
  | callPointer =>
    cases c with
    | enter target =>
      cases h
      exact ⟨List.forall_mem_cons.2 ⟨inBody_enteredFrame P target, hrest⟩, .inl rfl⟩
    | _ => cases h

/-- One step keeps the counters, unless it is a call of `addCallee`. -/
theorem step_kept {s : State F} (h : step P s c = some (t, new))
    (hs : ∀ frame ∈ s.stack, frame.InBody P) :
    (∀ frame ∈ t.stack, frame.InBody P) ∧
      (t.shadow.callStackEntryNum = s.shadow.callStackEntryNum ∨
        ∃ f name code below, s.stack = .defined f (.addCallee name :: code) :: below ∧
          t.shadow = s.shadow.addCallee name) := by
  obtain ⟨stack, shadow⟩ := s
  match stack with
  | [] => cases h
  | .external :: below =>
    have hkept := stepExternal_kept h (List.forall_mem_cons.1 hs).2
    exact ⟨hkept.stack, .inl hkept.counters⟩
  | .defined f [] :: below =>
    have hkept := stepEnd_kept h (List.forall_mem_cons.1 hs).2
    exact ⟨hkept.stack, .inl hkept.counters⟩
  | .defined f (i :: code) :: below =>
    obtain ⟨htop, hbelow⟩ := List.forall_mem_cons.1 hs
    have hrest : ∀ frame ∈ .defined f code :: below, frame.InBody P :=
      List.forall_mem_cons.2 ⟨(List.forall_mem_cons.1 htop).2, hbelow⟩
    obtain ⟨hframes, hnum⟩ := stepInstruction_kept h hrest
    refine ⟨hframes, hnum.imp_right ?_⟩
    rintro ⟨name, rfl, hshadow⟩
    exact ⟨f, name, code, below, rfl, hshadow⟩

end Bodies

/-- The `addCallee` that stands in front of the call of a declaration. -/
theorem exists_callee_of_mem_instrument {block : List (Inst F)} (hblock : ∀ i ∈ block, P.Plain i)
    {name : String} (hname : .addCallee name ∈ block.flatMap (P.instrument f)) :
    ∃ g, name = P.getName g ∧ P.isIntrinsic g = false ∧ P.getName g ≠ "main" := by
  obtain ⟨i, hi, hmem⟩ := List.mem_flatMap.1 hname
  cases i with
  | call g =>
    rw [Program.instrument] at hmem
    split at hmem
    · simp at hmem
    · next hintrinsic =>
      split at hmem
      · simp only [List.mem_cons, reduceCtorEq, Inst.addCallee.injEq, List.not_mem_nil, or_false,
          false_or] at hmem
        exact ⟨g, hmem, Bool.not_eq_true _ ▸ hintrinsic, hblock _ hi⟩
      · simp at hmem
  | callPointer => simp [Program.instrument] at hmem
  | addCaller _ => exact (hblock _ hi).elim
  | addCallee _ => exact (hblock _ hi).elim
  | other => simp [Program.instrument] at hmem

/-- The names that the inserted calls of `addCallee` pass. -/
theorem exists_callee_of_mem_body (hplain : P.AllPlain) {block : List (Inst F)} {name : String}
    (hblock : block ∈ P.runOnModule.body f) (hname : .addCallee name ∈ block) :
    ∃ g, name = P.getName g ∧ P.isIntrinsic g = false ∧ P.getName g ≠ "main" := by
  have hplain := hplain f
  change block ∈ P.runOnFunction f at hblock
  unfold Program.runOnFunction at hblock
  split at hblock
  · exact (hplain block hblock _ hname).elim
  · next hdefined =>
    obtain ⟨original, horiginal, rfl⟩ := List.mem_map.1 hblock
    split at horiginal
    · next hmain =>
      cases hbody : P.body f with
      | nil =>
        rw [hbody] at horiginal
        cases horiginal
      | cons entry blocks =>
        rw [hbody] at horiginal hplain
        rcases List.mem_cons.1 horiginal with rfl | horiginal
        · -- the call at the begin of the entry block, or one in front of a call
          rw [List.flatMap_cons] at hname
          rcases List.mem_append.1 hname with hentry | hname
          · obtain rfl := Inst.addCallee.inj (List.mem_singleton.1 hentry)
            exact ⟨f, rfl, Bool.eq_false_iff.2 fun h => hdefined (by rw [h]; rfl), hmain⟩
          · exact exists_callee_of_mem_instrument (hplain entry List.mem_cons_self) hname
        · exact exists_callee_of_mem_instrument
            (hplain original (List.mem_cons_of_mem _ horiginal)) hname
    · exact exists_callee_of_mem_instrument (hplain original horiginal) hname

section Counters

variable [DecidableEq F] {events : List (Event F)} {num : CallStackEntry → Int32}

/-- Only entries of events have counters. -/
def Supported (P : Program F) (num : CallStackEntry → Int32) : Prop :=
  ∀ e, num e ≠ 0 → ∃ event, entryOfEvent P event = some e

omit [DecidableEq F] in
theorem Supported.increment (h : Supported P num) (event : Event F) {e : CallStackEntry}
    (hevent : entryOfEvent P event = some e) :
    Supported P (ShadowCallStack.increment num e) := by
  intro e' he'
  unfold ShadowCallStack.increment at he'
  split at he'
  · next heq => exact ⟨event, heq ▸ hevent⟩
  · exact h e' he'

/-- What `addCallee` counts, at the place where the run is. -/
theorem Phase.supported_addCallee (hP : Named P) {s : State F} (hs : Phase P events s)
    (hsupported : Supported P s.shadow.callStackEntryNum) {name : String} {code : List (Inst F)}
    {below : List (Frame F)} (hstack : s.stack = .defined f (.addCallee name :: code) :: below)
    (hcallee : ∃ g, name = P.getName g ∧ P.isIntrinsic g = false ∧ P.getName g ≠ "main") :
    Supported P (s.shadow.addCallee name).callStackEntryNum := by
  have hinj : ∀ f g, P.getName f = P.getName g → f = g := fun f g hname =>
    P.getName_inj f g hname (hP f).1
  obtain ⟨callee, hname, hintrinsic, hmain⟩ := hcallee
  cases hs with
  | settled hsettled hcounted =>
    -- no instrumented instruction begins with it
    dsimp only at hstack
    subst hstack
    cases (settled_defined.1 hsettled).1
  | calling hg hmain hsettled hcounted => simp at hstack
  | @called events f g code below num hg hsettled hcounted =>
    simp only [List.cons.injEq, Frame.defined.injEq, Inst.addCallee.injEq] at hstack
    obtain rfl := hinj _ _ (hstack.1.2.1.trans hname)
    rw [← hstack.1.2.1, addCallee_of_ne (hP f).1]
    exact hsupported.increment (.directCall f g) (by simp [entryOfEvent, hintrinsic])
  | @entered events g code below num hg hsettled hcounted =>
    simp only [List.cons.injEq, Frame.defined.injEq, Inst.addCallee.injEq] at hstack
    obtain rfl := hinj _ _ (hstack.1.2.1.trans hname)
    rw [← hstack.1.2.1, addCallee_of_empty]
    exact hsupported.increment (.otherEntry g) (by simp [entryOfEvent, hg, hmain])
  | @declaring events f g code below num hg hsettled hcounted =>
    simp only [List.cons.injEq, Frame.defined.injEq, Inst.addCallee.injEq] at hstack
    obtain rfl := hinj _ _ (hstack.1.2.1.trans hname)
    rw [← hstack.1.2.1, addCallee_of_ne (hP f).1]
    exact hsupported.increment (.directCall f g) (by simp [entryOfEvent, hintrinsic])
  | declared hg hsettled hcounted => simp at hstack

theorem supported_of_run (hplain : P.AllPlain) (hP : Named P) {choices : List (Choice F)}
    {t : State F} (h : Trace.run (step P.runOnModule) {} choices = some (t, events)) :
    Supported P t.shadow.callStackEntryNum := by
  have hstart : Phase P [] {} := .settled (settled_external.2 nofun) (counted_nil P)
  have hframes : ∀ frame ∈ ({} : State F).stack, frame.InBody P.runOnModule :=
    List.forall_mem_cons.2 ⟨trivial, nofun⟩
  refine (Trace.run_invariant (I := fun events s => Phase P events s ∧
    (∀ frame ∈ s.stack, frame.InBody P.runOnModule) ∧ Supported P s.shadow.callStackEntryNum)
    (fun ⟨hphase, hframes, hsupported⟩ hstep => ?_) ⟨hstart, hframes, fun _ h => absurd rfl h⟩
      h).2.2
  obtain ⟨hframes', hnum⟩ := step_kept hstep hframes
  refine ⟨hphase.step hplain hP hstep, hframes', ?_⟩
  rcases hnum with hnum | ⟨f, name, code, below, hstack, hshadow⟩
  · rwa [hnum]
  · rw [hstack] at hframes
    obtain ⟨block, hblock, hname⟩ := (List.forall_mem_cons.1 hframes).1 _ List.mem_cons_self
    rw [hshadow]
    exact hphase.supported_addCallee hP hsupported hstack
      (exists_callee_of_mem_body hplain hblock hname)

/-- **All counters of a run**, those of the pairs that never called included. -/
theorem callStackEntryNum_eq_count (hplain : P.AllPlain) (hP : Named P) {choices : List (Choice F)}
    {stack : List (Frame F)} {shadow : ShadowCallStack}
    (h : Trace.run (step P.runOnModule) {} choices = some (⟨.external :: stack, shadow⟩, events))
    (e : CallStackEntry) : shadow.callStackEntryNum e =
      Int32.ofNat ((events.filterMap (entryOfEvent P)).count e) := by
  by_cases hused : ∃ event, entryOfEvent P event = some e
  · obtain ⟨event, hevent⟩ := hused
    have hcount : (events.filterMap (entryOfEvent P)).count e = events.count event := by
      unfold List.count
      rw [List.countP_filterMap]
      refine List.countP_congr fun event' _ => ?_
      rw [beq_iff_eq]
      constructor
      · intro hsame
        cases hevent' : entryOfEvent P event' with
        | none => simp [hevent'] at hsame
        | some e' =>
          obtain rfl : e' = e := by simpa [hevent'] using hsame
          exact entryOfEvent_inj hP hevent' hevent
      · rintro rfl
        simp [hevent]
    rw [hcount]
    have hcounted := counted_of_run hplain hP h
    cases event with
    | directCall f g =>
      simp only [entryOfEvent, Option.ite_none_left_eq_some, Option.some.injEq] at hevent
      obtain ⟨hg, rfl⟩ := hevent
      exact hcounted.directCall f g (Bool.not_eq_true _ ▸ hg)
    | otherEntry g =>
      simp only [entryOfEvent, Option.ite_none_left_eq_some, Option.some.injEq, not_or] at hevent
      obtain ⟨hg, rfl⟩ := hevent
      exact hcounted.otherEntry g (Bool.not_eq_true _ ▸ hg.1) hg.2
  · have hzero : shadow.callStackEntryNum e = 0 := by
      by_contra hne
      exact hused (supported_of_run hplain hP h e hne)
    rw [hzero, List.count_eq_zero_of_not_mem]
    · rfl
    · intro hmem
      obtain ⟨event, -, hevent⟩ := List.mem_filterMap.1 hmem
      exact hused ⟨event, hevent⟩

/-! ## The table -/

/-- What the loop over the hash table goes through, as long as no counter has come back to 0. -/
structure TableOf (num : CallStackEntry → Int32) (entries : List (CallStackEntry × Int32)) : Prop where
  nodup : (entries.map Prod.fst).Nodup
  counter : ∀ callEntry ∈ entries, callEntry.2 = num callEntry.1
  mem : ∀ e, e ∈ entries.map Prod.fst ↔ num e ≠ 0

omit [DecidableEq F] in
/-- The table of a run that the counters have held is a tally of what has been counted. -/
theorem TableOf.tally {entries : List (CallStackEntry × Int32)} (h : TableOf num entries)
    (hlength : events.length ≤ 2147483647)
    (hnum : ∀ e, num e = Int32.ofNat ((events.filterMap (entryOfEvent P)).count e)) :
    Tally (events.filterMap (entryOfEvent P))
      (entries.map fun callEntry => (callEntry.1, callEntry.2.toInt)) := by
  have htoInt : ∀ e, (num e).toInt = (events.filterMap (entryOfEvent P)).count e := fun e => by
    have hcount := List.count_le_length (a := e) (l := events.filterMap (entryOfEvent P))
    have hfilter := List.length_filterMap_le (entryOfEvent P) events
    rw [hnum e]
    exact toInt_ofNat_of_le (hcount.trans (hfilter.trans hlength))
  have hkeys : (entries.map fun callEntry => (callEntry.1, callEntry.2.toInt)).map Prod.fst =
      entries.map Prod.fst := by
    rw [List.map_map]
    rfl
  constructor
  · rw [hkeys]
    exact h.nodup
  · intro row hrow
    obtain ⟨callEntry, hentry, rfl⟩ := List.mem_map.1 hrow
    dsimp only
    rw [h.counter callEntry hentry, htoInt]
  · intro e he
    rw [hkeys, h.mem]
    intro hzero
    have hcount := htoInt e
    rw [hzero] at hcount
    exact (List.count_pos_iff.2 he).ne' (Int.ofNat_eq_zero.1 hcount.symm)

end Counters

end ShadowCallStack

namespace ContextSwitchesEvalData

open ShadowCallStack

/-! ## Model -/

/-- The functions of one partition in a statistics document. -/
def parseFunctions (stats : Json R) (partitionKey : String) : Option (List String) :=
  match SecurityData.subscript stats ["partition", partitionKey, "partition_functions"] with
  | some (.array functions) => functions.mapM Json.toString?
  | _ => none

/-- `parse_data_for_program_coverage_optimization` and
`parse_data_for_expert_knowledge_coverage_optimization`, for the document if there is one. -/
def parseDataForProgramCoverageOptimization :
    Option (Json R) → Option (List String × List String)
  | none => some ([], [])
  | some stats => do
    let secureFs ← parseFunctions stats "secure_partition"
    let insecureFs ← parseFunctions stats "insecure_partition"
    some (secureFs, insecureFs)

/-! ## The functions of the partitions -/

theorem parseFunctions_of_subscript {stats : Json R} {partitionKey : String} {names : List String}
    (h : SecurityData.subscript stats ["partition", partitionKey, "partition_functions"] =
      some (.array (names.map .string))) : parseFunctions stats partitionKey = some names := by
  unfold parseFunctions
  rw [h]
  dsimp only
  clear h
  induction names with
  | nil => rfl
  | cons name names ih =>
    rw [List.map_cons, List.mapM_cons, ih]
    rfl

/-- The lists that the script takes from a document are the names of the two partitions. -/
theorem parseData_dumpStats [DecidableEq F] [Field R] [LinearOrder R] (truncate : R → Int)
    (A : AnalysisInput F G V N R) (P : ProgramPartition F G R) :
    ∃ stats, P.dumpStats (Json.library truncate) A = some stats ∧
      parseDataForProgramCoverageOptimization (some stats) =
        some ((A.order.list P.securePartition.partition).map A.module.getName,
          (A.order.list P.insecurePartition.partition).map A.module.getName) := by
  obtain ⟨text, stats, hreport, hparse, hpath⟩ := PartitionStatistics.getPath_entries
    (Json.library truncate) A.module A.order P.callgraph P.securePartition P.insecurePartition
  obtain rfl : text = stats := Option.some.inj hparse
  refine ⟨text, hreport, ?_⟩
  unfold parseDataForProgramCoverageOptimization
  simp only [
    parseFunctions_of_subscript (SecurityData.subscript_of_getPath
      (hpath "secure_partition" "partition_functions") nofun),
    parseFunctions_of_subscript (SecurityData.subscript_of_getPath
      (hpath "insecure_partition" "partition_functions") nofun)]
  rfl

/-! ## Executed context switches -/

section Executed

variable [DecidableEq F] {prog : Program F}

/-- The events that go from one partition to the other.  Neither a call of an intrinsic function nor
an entry of `main` is counted; code outside of the module is insecure. -/
def Crosses (prog : Program F) (secure : Finset F) : Event F → Prop
  | .directCall f g => prog.isIntrinsic g = false ∧ ¬ (f ∈ secure ↔ g ∈ secure)
  | .otherEntry g => prog.isDeclaration g = false ∧ prog.getName g ≠ "main" ∧ g ∈ secure

instance (secure : Finset F) : DecidablePred (Crosses prog secure)
  | .directCall _ _ => inferInstanceAs (Decidable (_ ∧ _))
  | .otherEntry _ => inferInstanceAs (Decidable (_ ∧ _ ∧ _))

/-- The names of an event cross a partition if the event does. -/
theorem crosses_iff (hP : Named prog) {secure : Finset F} {secureFs : List String}
    (hsecure : ∀ name, name ∈ secureFs ↔ ∃ f ∈ secure, prog.getName f = name) (event : Event F) :
    Crosses prog secure event ↔ ∃ e, entryOfEvent prog event = some e ∧
      ¬ (e.caller ∈ secureFs ↔ e.callee ∈ secureFs) := by
  have hmem : ∀ f, prog.getName f ∈ secureFs ↔ f ∈ secure := by
    intro f
    rw [hsecure]
    constructor
    · rintro ⟨g, hg, hname⟩
      rwa [← prog.getName_inj g f hname (hP g).1]
    · exact fun hf => ⟨f, hf, rfl⟩
  have hexternal : "external" ∉ secureFs := fun h => by
    obtain ⟨f, -, hname⟩ := (hsecure _).1 h
    exact (hP f).2 hname
  cases event with
  | directCall f g => simp [Crosses, entryOfEvent, hmem]
  | otherEntry g => simp [Crosses, entryOfEvent, hmem, hexternal, and_assoc]

/-- The entries of the file that cross a partition, and the executed calls that do. -/
theorem crossing_eq_countP (hP : Named prog) {events : List (Event F)}
    {entries : List (Vazgen.CallStackEntry × Int32)}
    (htally : Tally (events.filterMap (entryOfEvent prog))
      (entries.map fun callEntry => (callEntry.1, callEntry.2.toInt)))
    {data : Data} {program cov opt repeatDir : String}
    (hentries : data.callStackEntries program = entries.map entryOf) {secure : Finset F}
    (hsecure : ∀ name, name ∈ data.securePartition program cov repeatDir opt ↔
      ∃ f ∈ secure, prog.getName f = name) :
    crossing data program cov opt repeatDir =
      events.countP fun event => decide (Crosses prog secure event) := by
  have hsum := htally.sum_filter fun e =>
    decide (¬ (e.caller ∈ data.securePartition program cov repeatDir opt ↔
      e.callee ∈ data.securePartition program cov repeatDir opt))
  rw [List.filter_map, List.map_map] at hsum
  unfold crossing
  rw [hentries, List.filter_map, List.map_map]
  refine hsum.trans ?_
  rw [List.countP_filterMap]
  refine congrArg Nat.cast (List.countP_congr fun event _ => ?_)
  rw [decide_eq_true_iff, crosses_iff hP hsecure]
  cases entryOfEvent prog event with
  | none => simp
  | some e => simp

omit [DecidableEq F] in
theorem isName_of_entryOfEvent (hnames : ∀ f, IsName (prog.getName f)) {event : Event F}
    {e : Vazgen.CallStackEntry} (h : entryOfEvent prog event = some e) :
    IsName e.caller ∧ IsName e.callee := by
  cases event with
  | directCall f g =>
    simp only [entryOfEvent, Option.ite_none_left_eq_some, Option.some.injEq] at h
    obtain ⟨-, rfl⟩ := h
    exact ⟨hnames f, hnames g⟩
  | otherEntry g =>
    simp only [entryOfEvent, Option.ite_none_left_eq_some, Option.some.injEq] at h
    obtain ⟨-, rfl⟩ := h
    have hexternal : IsName "external" := by decide
    exact ⟨hexternal, hnames g⟩

/-! ## Top theorem -/

/-- **The script counts executed calls.**  After a run that no counter is too small for, the file of its
shadow call stack is read, and for every optimisation the number behind the repeats of a coverage is
that of the calls that cross the partitions of the repeats. -/
theorem contextSwitches_eq_executed [Field R] [LinearOrder R] (truncate : R → Int)
    (A : AnalysisInput F G V N R) (prog : Program F) (hplain : prog.AllPlain)
    (hgetName : ∀ f, prog.getName f = A.module.getName f)
    (hnames : ∀ f, IsName (prog.getName f)) (hexternal : ∀ f, prog.getName f ≠ "external")
    {choices : List (Choice F)} {stack : List (Frame F)} {shadow : ShadowCallStack}
    {events : List (Event F)}
    (hrun : Trace.run (step prog.runOnModule) {} choices =
      some (⟨.external :: stack, shadow⟩, events)) (hlength : events.length ≤ 2147483647)
    {entries : List (Vazgen.CallStackEntry × Int32)}
    (hentries : TableOf shadow.callStackEntryNum entries) :
    ∃ found, parseCallEntries (some (dumpShadowCallStack entries)) = some found ∧
      ∀ (data : Data) (program cov opt : String) (parts : String → ProgramPartition F G R),
        data.programs.Nodup → data.coverages.Nodup → data.optimizations.Nodup →
        data.callStackEntries program = found →
        (∀ repeatDir ∈ visited cov data.repeats, ∃ stats,
          (parts repeatDir).dumpStats (Json.library truncate) A = some stats ∧
          parseDataForProgramCoverageOptimization (some stats) =
            some (data.securePartition program cov repeatDir opt,
              data.insecurePartition program cov repeatDir opt)) →
        (program, cov) ∈ reached data (keys data) → opt ∈ data.optimizations →
        (computeContextSwitches data).contextSwitches (program, cov, opt) =
          ((visited cov data.repeats).map fun repeatDir =>
            ((events.countP fun event =>
              decide (Crosses prog (parts repeatDir).securePartition.partition event) : Nat) :
                Int)).sum := by
  have hP : Named prog := fun f =>
    ⟨fun h => (hnames f).1 (String.toList_eq_nil_iff.2 h), hexternal f⟩
  have hnum := callStackEntryNum_eq_count hplain hP hrun
  refine ⟨entries.map entryOf, parseCallEntries_dump fun callEntry hentry => ?_, ?_⟩
  · have hused := (hentries.mem callEntry.1).1 (List.mem_map_of_mem hentry)
    obtain ⟨event, hevent⟩ := supported_of_run hplain hP hrun callEntry.1 hused
    exact isName_of_entryOfEvent hnames hevent
  intro data program cov opt parts hprograms hcoverages hopts hcalls hstats hreached hopt
  have hcrossing : ∀ repeatDir ∈ visited cov data.repeats,
      crossing data program cov opt repeatDir = events.countP fun event =>
        decide (Crosses prog (parts repeatDir).securePartition.partition event) := by
    intro repeatDir hvisited
    obtain ⟨stats, hdump, hparse⟩ := hstats repeatDir hvisited
    obtain ⟨stats', hdump', hparse'⟩ := parseData_dumpStats truncate A (parts repeatDir)
    obtain rfl := Option.some.inj (hdump.symm.trans hdump')
    have hsecureFs := congrArg Prod.fst (Option.some.inj (hparse.symm.trans hparse'))
    dsimp only at hsecureFs
    refine crossing_eq_countP hP (hentries.tally hlength hnum) hcalls fun name => ?_
    rw [hsecureFs, List.mem_map]
    simp only [A.order.mem, hgetName]
  have hcount := visitCoverages_counts (s := {}) hopts (hprograms.product hcoverages) rfl
    (fun _ _ _ => rfl) (program, cov) opt
  refine hcount.trans ((zero_add _).trans ?_)
  rw [if_pos ⟨hreached, hopt⟩]
  exact congrArg List.sum (List.map_congr_left hcrossing)

end Executed

/-- The module of the example, of which the statistics name the functions. -/
def threeFunctionsInput : AnalysisInput ThreeFunctions Empty Empty Empty ℚ where
  module :=
    { functions := [.main, .caller, .callee]
      globals := []
      getName := callAndPointer.getName
      isDeclaration := fun _ => false
      isIntrinsic := fun _ => false
      argTypes := fun _ => []
      getReturnType := fun _ => .void
      functionSize := fun _ => 1
      returnInsts := fun _ => []
      valueClass := nofun }
  pdg :=
    { kind := nofun
      isLLVMNode := nofun
      getNodeValue := nofun
      getParent := nofun
      isPointerArgOperand := nofun
      outEdges := nofun
      inEdges := nofun
      hasFunctionPDG := fun _ => true
      getCallSites := fun _ => []
      llvmNodes := fun _ => []
      getNode := fun _ _ => none
      getFormalArgNode := fun _ _ => none
      getGlobalVariableNode := fun _ => none }
  llvmGraph := { nodes := [] }
  loopInfoGetter := fun _ => none
  order :=
    { list := fun s => [.main, .caller, .callee].filter (· ∈ s)
      nodup := fun s => List.Nodup.filter _ (by decide)
      mem := fun s f => by cases f <;> simp }
  solve := fun _ => none
  fuel := 1

/-- The counters at the end of the run of the example. -/
def callAndPointerNum : Vazgen.CallStackEntry → Int32 :=
  increment (increment (increment (fun _ => 0) ⟨"main", "f"⟩) ⟨"f", "g"⟩) ⟨"external", "g"⟩

theorem callAndPointer_table :
    TableOf callAndPointerNum [(⟨"main", "f"⟩, 1), (⟨"f", "g"⟩, 1), (⟨"external", "g"⟩, 1)] where
  nodup := by decide
  counter := by decide
  mem e := by
    constructor
    · simp only [List.map_cons, List.map_nil, List.mem_cons, List.not_mem_nil, or_false]
      rintro (rfl | rfl | rfl) <;> decide
    · intro h
      by_contra hmem
      simp only [List.map_cons, List.map_nil, List.mem_cons, List.not_mem_nil, or_false,
        not_or] at hmem
      refine h ?_
      simp [callAndPointerNum, increment, hmem]

def calleeSecure : ProgramPartition ThreeFunctions Empty ℚ where
  callgraph := { functionNodes := [] }
  securePartition := { partition := {.callee} }
  insecurePartition := { partition := {.main, .caller} }

/-- One repeat, besides the entry for expert knowledge. -/
def oneRepeat (found : List CallStackEntry) : Data where
  programs := ["snake"]
  coverages := ["25"]
  repeats := ["no-repeat", "0"]
  optimizations := ["ilp", "search-based"]
  securePartition := fun _ _ _ _ => ["g"]
  insecurePartition := fun _ _ _ _ => ["main", "f"]
  callStackEntries := fun _ => found

/-- With `g` in the enclave the direct call and the one through the pointer cross. -/
theorem callAndPointer_switches : ∃ found,
    parseCallEntries (some (dumpShadowCallStack
      [(⟨"main", "f"⟩, 1), (⟨"f", "g"⟩, 1), (⟨"external", "g"⟩, 1)])) = some found ∧
      (computeContextSwitches (oneRepeat found)).contextSwitches ("snake", "25", "ilp") = 2 := by
  have hrun : Trace.run (step callAndPointer.runOnModule) {}
      ([.enter (some .main)] ++ List.replicate 8 .next ++ [.enter (some .callee)] ++
        List.replicate 5 .next) =
      some (⟨[.external], ⟨"", callAndPointerNum⟩⟩,
        [.otherEntry .main, .directCall .main .caller, .directCall .caller .callee,
          .otherEntry .callee]) := rfl
  obtain ⟨found, hfound, hcounts⟩ := contextSwitches_eq_executed (fun _ => 0) threeFunctionsInput
    callAndPointer (fun f => by cases f <;> decide) (fun _ => rfl)
    (fun f => by cases f <;> decide) (fun f => by cases f <;> decide) hrun (by decide)
    callAndPointer_table
  obtain ⟨stats, hdump, hparse⟩ := parseData_dumpStats (fun _ : ℚ => 0) threeFunctionsInput
    calleeSecure
  have hone : ["snake"].Nodup ∧ ["25"].Nodup ∧ ["ilp", "search-based"].Nodup := by decide
  refine ⟨found, hfound, ?_⟩
  exact (hcounts (oneRepeat found) "snake" "25" "ilp" (fun _ => calleeSecure) hone.1 hone.2.1
    hone.2.2 rfl (fun _ _ => ⟨stats, hdump, hparse⟩) List.mem_cons_self List.mem_cons_self).trans rfl

end ContextSwitchesEvalData

end Vazgen
