import Vazgen.Eval.ShadowStackBuilder

/-!
# Runs of an instrumented program

A program runs on a stack of frames, of its own functions and of code outside of it.  Which way a run
goes is up to a list of choices: where a block continues, which function a pointer or a callback
enters, when code outside returns, and to which frame it unwinds.

The slot for the caller is in use only around a call, and then on top of the stack is what empties it
(`Phase`).

**`callStackEntryNum_eq`**: the counters are the numbers of direct calls and of other entries, as long
as they hold them.
-/

namespace Vazgen

variable {F : Type}

open ShadowCallStackGenerator MachineInt

namespace ShadowCallStack

/-! ## Model -/

inductive Frame (F : Type)
  /-- The code that is left of the block. -/
  | defined (f : F) (code : List (Inst F))
  /-- Code outside of the module, also what starts the program. -/
  | external
  deriving DecidableEq

structure State (F : Type) where
  stack : List (Frame F) := [.external]
  shadow : ShadowCallStack := {}

inductive Choice (F : Type)
  /-- The next instruction, or the return at the end. -/
  | next
  /-- From the end of a block to another one. -/
  | jump (block : Nat)
  /-- A call through a pointer or from outside; `none` is a function outside of the module. -/
  | enter (target : Option F)
  /-- Out of `depth` frames, to a block or behind a call in it. -/
  | unwind (depth block position : Nat)

variable (P : Program F)

def newFrame (g : F) : Frame F :=
  match P.body g with
  | [] => .external
  | entry :: _ => .defined g entry

def enteredFrame : Option F → Frame F
  | none => .external
  | some g => newFrame P g

def entryEvents : Option F → List (Event F)
  | none => []
  | some g => if P.isDeclaration g then [] else [.otherEntry g]

/-- Where `f` can continue: no jump leads to the entry block, and `setjmp` returns behind its call. -/
def resume (f : F) (block : Nat) : Nat → Option (List (Inst F))
  | 0 => if block = 0 then none else (P.body f)[block]?
  | position + 1 =>
    match ((P.body f)[block]?.getD []).drop position with
    | .call _ :: code => some code
    | _ => none

/-- An exception or a `longjmp` reaches the frame on top. -/
def unwind (shadow : ShadowCallStack) (block position : Nat) :
    List (Frame F) → Option (State F × List (Event F))
  | [] => none
  | .external :: below => some (⟨.external :: below, shadow⟩, [])
  | .defined f _ :: below =>
    match resume P f block position with
    | none => none
    | some code => some (⟨.defined f code :: below, shadow⟩, [])

def stepExternal (below : List (Frame F)) (shadow : ShadowCallStack) :
    Choice F → Option (State F × List (Event F))
  | .next => if below.isEmpty then none else some (⟨below, shadow⟩, [])
  | .jump _ => none
  | .enter target =>
    some (⟨enteredFrame P target :: .external :: below, shadow⟩, entryEvents P target)
  | .unwind depth block position => unwind P shadow block position (below.drop depth)

def stepEnd (f : F) (below : List (Frame F)) (shadow : ShadowCallStack) :
    Choice F → Option (State F × List (Event F))
  | .next => some (⟨below, shadow⟩, [])
  | .jump block =>
    match resume P f block 0 with
    | none => none
    | some code => some (⟨.defined f code :: below, shadow⟩, [])
  | .enter _ => none
  | .unwind depth block position => unwind P shadow block position (below.drop depth)

def stepInstruction (f : F) (code : List (Inst F)) (below : List (Frame F))
    (shadow : ShadowCallStack) : Inst F → Choice F → Option (State F × List (Event F))
  | .other, .next => some (⟨.defined f code :: below, shadow⟩, [])
  | .addCaller name, .next => some (⟨.defined f code :: below, shadow.addCaller name⟩, [])
  | .addCallee name, .next => some (⟨.defined f code :: below, shadow.addCallee name⟩, [])
  | .call g, .next =>
    some (⟨newFrame P g :: .defined f code :: below, shadow⟩, [.directCall f g])
  | .callPointer, .enter target =>
    some (⟨enteredFrame P target :: .defined f code :: below, shadow⟩, entryEvents P target)
  | _, _ => none

/-- One step, with what it does that is to be counted. -/
def step (s : State F) (c : Choice F) : Option (State F × List (Event F)) :=
  match s.stack with
  | [] => none
  | .external :: below => stepExternal P below s.shadow c
  | .defined f [] :: below => stepEnd P f below s.shadow c
  | .defined f (i :: code) :: below => stepInstruction P f code below s.shadow i c

/-! ## The code that is left of each frame -/

/-- All frames go on with whole instrumented instructions. -/
def Settled (stack : List (Frame F)) : Prop :=
  ∀ f code, .defined f code ∈ stack → Instrumented P f code

section Frames

variable {P} {f g : F} {code : List (Inst F)} {below : List (Frame F)}

theorem settled_external : Settled P (.external :: below) ↔ Settled P below := by
  unfold Settled
  simp only [List.mem_cons, reduceCtorEq, false_or]

theorem settled_defined :
    Settled P (.defined f code :: below) ↔ Instrumented P f code ∧ Settled P below := by
  unfold Settled
  constructor
  · intro h
    exact ⟨h f code List.mem_cons_self, fun f' code' hmem => h f' code' (List.mem_cons_of_mem _ hmem)⟩
  · rintro ⟨hcode, hbelow⟩ f' code' hmem
    rcases List.mem_cons.1 hmem with heq | hmem
    · cases heq
      exact hcode
    · exact hbelow f' code' hmem

/-- A function goes on with instrumented instructions wherever it is resumed. -/
theorem instrumented_resume (hplain : P.AllPlain) {block position : Nat}
    (h : resume P.runOnModule f block position = some code) :
    Instrumented P f code := by
  cases hf : P.isDeclaration f with
  | true =>
    have hbody := runOnModule_body_of_isDeclaration hf
    cases position with
    | zero =>
      rw [resume, hbody] at h
      split at h <;> cases h
    | succ position =>
      rw [resume, hbody] at h
      simp at h
  | false =>
    obtain ⟨entry, blocks, hbody, hblocks⟩ := instrumented_body hplain hf
    obtain ⟨hentry, hblocks⟩ := List.forall_mem_cons.1 hblocks
    cases position with
    | zero =>
      rw [resume, hbody] at h
      cases block with
      | zero => cases h
      | succ block => exact hblocks code (List.mem_of_getElem? h)
    | succ position =>
      rw [resume, hbody] at h
      split at h
      · rename_i g rest hdrop
        cases h
        cases block with
        | zero => exact hentry.of_drop_entry position hdrop
        | succ block =>
          change (blocks[block]?.getD []).drop position = _ at hdrop
          cases hblock : blocks[block]? with
          | none => simp [hblock] at hdrop
          | some found =>
            rw [hblock] at hdrop
            exact (hblocks found (List.mem_of_getElem? hblock)).of_drop position hdrop
      · cases h

theorem newFrame_of_isDeclaration (hg : P.isDeclaration g = true) :
    newFrame P.runOnModule g = .external := by
  rw [newFrame, runOnModule_body_of_isDeclaration hg]

theorem exists_newFrame (hplain : P.AllPlain) (hg : P.isDeclaration g = false) :
    ∃ entry, newFrame P.runOnModule g = .defined g (P.entryCall g ++ entry) ∧
      Instrumented P g entry := by
  obtain ⟨entry, blocks, hbody, hblocks⟩ := instrumented_body hplain hg
  exact ⟨entry, by rw [newFrame, hbody], hblocks entry List.mem_cons_self⟩

theorem Settled.drop (h : Settled P below) (n : Nat) : Settled P (below.drop n) :=
  fun f code hmem => h f code (List.mem_of_mem_drop hmem)

end Frames

/-! ## The slot in all phases of a run -/

variable [DecidableEq F]

/-- What has happened, and what is in the slot and the counters: between two instructions of the
original program, and at the places around a call where the slot is in use. -/
inductive Phase (P : Program F) : List (Event F) → State F → Prop
  | settled {events stack num} (hstack : Settled P stack) (hcounted : Counted P events num) :
    Phase P events ⟨stack, ⟨"", num⟩⟩
  /-- In front of a call of a defined function. -/
  | calling {events f g code below num} (hg : P.isDeclaration g = false)
    (hmain : P.getName g ≠ "main") (hstack : Settled P (.defined f code :: below))
    (hcounted : Counted P events num) :
    Phase P events ⟨.defined f (.call g :: code) :: below, ⟨P.getName f, num⟩⟩
  /-- At the entry of the called function. -/
  | called {events f g code below num} (hg : P.isDeclaration g = false)
    (hstack : Settled P (.defined g code :: below)) (hcounted : Counted P events num) :
    Phase P (events ++ [.directCall f g])
      ⟨.defined g (.addCallee (P.getName g) :: code) :: below, ⟨P.getName f, num⟩⟩
  /-- At the entry of a function that is entered from elsewhere. -/
  | entered {events g code below num} (hg : P.isDeclaration g = false)
    (hstack : Settled P (.defined g code :: below)) (hcounted : Counted P events num) :
    Phase P (events ++ [.otherEntry g])
      ⟨.defined g (.addCallee (P.getName g) :: code) :: below, ⟨"", num⟩⟩
  /-- In front of the `addCallee` of a declaration, whose call comes after it. -/
  | declaring {events f g code below num} (hg : P.isDeclaration g = true)
    (hstack : Settled P (.defined f code :: below)) (hcounted : Counted P events num) :
    Phase P events
      ⟨.defined f (.addCallee (P.getName g) :: .call g :: code) :: below, ⟨P.getName f, num⟩⟩
  | declared {events f g code below num} (hg : P.isDeclaration g = true)
    (hstack : Settled P (.defined f code :: below))
    (hcounted : Counted P (events ++ [.directCall f g]) num) :
    Phase P events ⟨.defined f (.call g :: code) :: below, ⟨"", num⟩⟩

variable {P} {f g : F} {code : List (Inst F)} {stack below : List (Frame F)}
variable {events : List (Event F)} {num : CallStackEntry → Int32}

theorem phase_enter (hplain : P.AllPlain) (hbelow : Settled P below) (hcounted : Counted P events num)
    (target : Option F) :
    Phase P (events ++ entryEvents P.runOnModule target)
      ⟨enteredFrame P.runOnModule target :: below, ⟨"", num⟩⟩ := by
  cases target with
  | none =>
    rw [entryEvents, List.append_nil]
    exact .settled (settled_external.2 hbelow) hcounted
  | some g =>
    rw [entryEvents, enteredFrame, isDeclaration_runOnModule]
    cases hg : P.isDeclaration g with
    | true =>
      rw [if_pos rfl, List.append_nil, newFrame_of_isDeclaration hg]
      exact .settled (settled_external.2 hbelow) hcounted
    | false =>
      obtain ⟨entry, hframe, hentry⟩ := exists_newFrame hplain hg
      have hstack := settled_defined.2 ⟨hentry, hbelow⟩
      rw [if_neg Bool.false_ne_true, hframe, Program.entryCall]
      split
      · exact .entered hg hstack hcounted
      · exact .settled hstack (hcounted.otherEntry_main (not_not.1 ‹_›))

theorem phase_unwind (hplain : P.AllPlain) (hbelow : Settled P below) (hcounted : Counted P events num)
    {block position : Nat} {t : State F} {new : List (Event F)}
    (h : unwind P.runOnModule ⟨"", num⟩ block position below = some (t, new)) :
    Phase P (events ++ new) t := by
  unfold unwind at h
  split at h
  · cases h
  · cases h
    rw [List.append_nil]
    exact .settled hbelow hcounted
  · split at h
    · cases h
    · rename_i hresume
      cases h
      rw [List.append_nil]
      exact .settled (settled_defined.2
        ⟨instrumented_resume hplain hresume, (settled_defined.1 hbelow).2⟩) hcounted

theorem phase_stepExternal (hplain : P.AllPlain) (hbelow : Settled P below)
    (hcounted : Counted P events num) {c : Choice F} {t : State F} {new : List (Event F)}
    (h : stepExternal P.runOnModule below ⟨"", num⟩ c = some (t, new)) : Phase P (events ++ new) t := by
  cases c with
  | next =>
    rw [stepExternal] at h
    split at h
    · cases h
    · cases h
      rw [List.append_nil]
      exact .settled hbelow hcounted
  | jump block => cases h
  | enter target =>
    cases h
    exact phase_enter hplain (settled_external.2 hbelow) hcounted target
  | unwind depth block position => exact phase_unwind hplain (hbelow.drop depth) hcounted h

theorem phase_stepEnd (hplain : P.AllPlain) (hbelow : Settled P below)
    (hcounted : Counted P events num) {c : Choice F} {t : State F} {new : List (Event F)}
    (h : stepEnd P.runOnModule f below ⟨"", num⟩ c = some (t, new)) : Phase P (events ++ new) t := by
  cases c with
  | next =>
    cases h
    rw [List.append_nil]
    exact .settled hbelow hcounted
  | jump block =>
    rw [stepEnd] at h
    split at h
    · cases h
    · rename_i hresume
      cases h
      rw [List.append_nil]
      exact .settled (settled_defined.2 ⟨instrumented_resume hplain hresume, hbelow⟩) hcounted
  | enter target => cases h
  | unwind depth block position => exact phase_unwind hplain (hbelow.drop depth) hcounted h

/-- The next instruction of a block is one of the original program, or the slot comes into use. -/
theorem phase_step_instrumented (hplain : P.AllPlain) (hcode : Instrumented P f code)
    (hbelow : Settled P below) (hcounted : Counted P events num) {c : Choice F} {t : State F}
    {new : List (Event F)}
    (h : step P.runOnModule ⟨.defined f code :: below, ⟨"", num⟩⟩ c = some (t, new)) :
    Phase P (events ++ new) t := by
  cases hcode with
  | nil => exact phase_stepEnd hplain hbelow hcounted h
  | other hcode =>
    cases c with
    | next =>
      cases h
      rw [List.append_nil]
      exact .settled (settled_defined.2 ⟨hcode, hbelow⟩) hcounted
    | _ => cases h
  | callPointer hcode =>
    cases c with
    | enter target =>
      cases h
      exact phase_enter hplain (settled_defined.2 ⟨hcode, hbelow⟩) hcounted target
    | _ => cases h
  | @intrinsic code g hg hcode =>
    cases c with
    | next =>
      cases h
      rw [newFrame_of_isDeclaration (P.isDeclaration_of_isIntrinsic hg)]
      exact .settled (settled_external.2 (settled_defined.2 ⟨hcode, hbelow⟩))
        (hcounted.directCall_intrinsic hg f)
    | _ => cases h
  | declared _ hg hcode =>
    cases c with
    | next =>
      cases h
      rw [List.append_nil]
      exact .declaring hg (settled_defined.2 ⟨hcode, hbelow⟩) hcounted
    | _ => cases h
  | defined hg hmain hcode =>
    cases c with
    | next =>
      cases h
      rw [List.append_nil]
      exact .calling hg hmain (settled_defined.2 ⟨hcode, hbelow⟩) hcounted
    | _ => cases h

/-- **One step goes from phase to phase.** -/
theorem Phase.step (hplain : P.AllPlain) (hP : Named P) {s t : State F} (hs : Phase P events s)
    {c : Choice F} {new : List (Event F)}
    (h : ShadowCallStack.step P.runOnModule s c = some (t, new)) : Phase P (events ++ new) t := by
  cases hs with
  | @settled _ stack num hstack hcounted =>
    match stack with
    | [] => cases h
    | .external :: below => exact phase_stepExternal hplain (settled_external.1 hstack) hcounted h
    | .defined f code :: below =>
      obtain ⟨hcode, hbelow⟩ := settled_defined.1 hstack
      exact phase_step_instrumented hplain hcode hbelow hcounted h
  | @calling _ f g code below num hg hmain hstack hcounted =>
    cases c with
    | next =>
      cases h
      obtain ⟨entry, hframe, hentry⟩ := exists_newFrame hplain hg
      rw [hframe, Program.entryCall, if_pos hmain]
      exact .called hg (settled_defined.2 ⟨hentry, hstack⟩) hcounted
    | _ => cases h
  | @called events f g code below num hg hstack hcounted =>
    cases c with
    | next =>
      cases h
      rw [List.append_nil, addCallee_of_ne (hP f).1]
      exact .settled hstack (hcounted.addDirectCall hP f g)
    | _ => cases h
  | @entered events g code below num hg hstack hcounted =>
    cases c with
    | next =>
      cases h
      rw [List.append_nil, addCallee_of_empty]
      exact .settled hstack (hcounted.addOtherEntry hP g)
    | _ => cases h
  | @declaring _ f g code below num hg hstack hcounted =>
    cases c with
    | next =>
      cases h
      rw [List.append_nil, addCallee_of_ne (hP f).1]
      exact .declared hg hstack (hcounted.addDirectCall hP f g)
    | _ => cases h
  | @declared _ f g code below num hg hstack hcounted =>
    cases c with
    | next =>
      cases h
      rw [newFrame_of_isDeclaration hg]
      exact .settled (settled_external.2 hstack) hcounted
    | _ => cases h

/-- When code outside of the program runs, every event is counted. -/
theorem counted_of_run (hplain : P.AllPlain) (hP : Named P) {choices : List (Choice F)}
    {shadow : ShadowCallStack}
    (h : Trace.run (step P.runOnModule) {} choices = some (⟨.external :: stack, shadow⟩, events)) :
    Counted P events shadow.callStackEntryNum := by
  have hstart : Phase P [] {} := .settled (settled_external.2 nofun) (counted_nil P)
  have hphase : Phase P ([] ++ events) ⟨.external :: stack, shadow⟩ :=
    Trace.run_invariant (fun hs hstep => hs.step hplain hP hstep) hstart h
  cases hphase with
  | settled hstack hcounted => exact hcounted

/-! ## Top theorem -/

/-- **The shadow call stack counts the calls**, in every run up to the return of `main` or to an `exit`,
as far as the counters reach. -/
theorem callStackEntryNum_eq (P : Program F) (hplain : P.AllPlain) (hP : Named P)
    (choices : List (Choice F)) (stack : List (Frame F)) (shadow : ShadowCallStack)
    (events : List (Event F))
    (hrun : Trace.run (step P.runOnModule) {} choices =
      some (⟨.external :: stack, shadow⟩, events)) :
    (∀ f g, P.isIntrinsic g = false → events.count (.directCall f g) ≤ 2147483647 →
      (shadow.callStackEntryNum ⟨P.getName f, P.getName g⟩).toInt =
        events.count (.directCall f g)) ∧
    ∀ g, P.isDeclaration g = false → P.getName g ≠ "main" →
      events.count (.otherEntry g) ≤ 2147483647 →
      (shadow.callStackEntryNum ⟨"external", P.getName g⟩).toInt =
        events.count (.otherEntry g) := by
  have hcounted := counted_of_run hplain hP hrun
  constructor
  · intro f g hg hcount
    rw [hcounted.directCall f g hg]
    exact toInt_ofNat_of_le hcount
  · intro g hg hmain hcount
    rw [hcounted.otherEntry g hg hmain]
    exact toInt_ofNat_of_le hcount

inductive ThreeFunctions | main | caller | callee
  deriving DecidableEq

/-- `main` calls a function with the given name and blocks; next to them there is `g`. -/
def threeFunctions (name : String) (blocks : List (List (Inst ThreeFunctions)))
    (hmain : name ≠ "main") (hg : name ≠ "g") : Program ThreeFunctions where
  getName
    | .main => "main"
    | .caller => name
    | .callee => "g"
  isIntrinsic := fun _ => false
  body
    | .main => [[.call .caller]]
    | .caller => blocks
    | .callee => [[.other]]
  getName_inj f g hname _ := by
    match f, g with
    | .main, .main => rfl
    | .main, .caller => exact absurd hname.symm hmain
    | .main, .callee => simp at hname
    | .caller, .main => exact absurd hname hmain
    | .caller, .caller => rfl
    | .caller, .callee => exact absurd hname hg
    | .callee, .main => simp at hname
    | .callee, .caller => exact absurd hname.symm hg
    | .callee, .callee => rfl
  intrinsic_body := nofun

/-- `f` calls `g` directly and through a pointer. -/
def callAndPointer : Program ThreeFunctions :=
  threeFunctions "f" [[.call .callee, .callPointer]] (by decide) (by decide)

theorem callAndPointer_counted : ∃ shadow,
    Trace.run (step callAndPointer.runOnModule) {}
        ([.enter (some .main)] ++ List.replicate 8 .next ++ [.enter (some .callee)] ++
          List.replicate 5 .next) =
      some (⟨[.external], shadow⟩,
        [.otherEntry .main, .directCall .main .caller, .directCall .caller .callee,
          .otherEntry .callee]) ∧
      (shadow.callStackEntryNum ⟨"f", "g"⟩).toInt = 1 ∧
      (shadow.callStackEntryNum ⟨"external", "g"⟩).toInt = 1 := by
  refine exists_imp.2 (fun shadow hrun => ⟨shadow, hrun, ?_⟩) ⟨_, rfl⟩
  have h := callStackEntryNum_eq _ (fun f => by cases f <;> decide) (fun f => by cases f <;> decide)
    _ _ _ _ hrun
  exact ⟨h.1 .caller .callee rfl (by decide), h.2 .callee rfl (by decide) (by decide)⟩

/-- `f` calls `g` in a loop. -/
def callLoop : Program ThreeFunctions :=
  threeFunctions "f" [[.other], [.call .callee]] (by decide) (by decide)

/-- The counters before the calls of `g`, and after `n` of them. -/
def loopCounters : Nat → CallStackEntry → Int32
  | 0 => increment (fun _ => 0) ⟨"main", "f"⟩
  | n + 1 => increment (loopCounters n) ⟨"f", "g"⟩

theorem exists_callLoop_run (n : Nat) : ∃ choices shadow events,
    Trace.run (step callLoop.runOnModule) {} choices = some (⟨[.external], shadow⟩, events) ∧
      events.count (.directCall .caller .callee) = n := by
  have hstart : Trace.run (step callLoop.runOnModule) {}
      ([.enter (some .main)] ++ List.replicate 4 .next) =
      some (⟨[.defined .caller [], .defined .main [], .external], ⟨"", loopCounters 0⟩⟩,
        [.otherEntry .main, .directCall .main .caller]) := rfl
  have hround : ∀ n, Trace.run (step callLoop.runOnModule)
      ⟨[.defined .caller [], .defined .main [], .external], ⟨"", loopCounters n⟩⟩
      ([.jump 1] ++ List.replicate 5 .next) =
      some (⟨[.defined .caller [], .defined .main [], .external], ⟨"", loopCounters (n + 1)⟩⟩,
        [.directCall .caller .callee]) := fun _ => rfl
  have hend : Trace.run (step callLoop.runOnModule)
      ⟨[.defined .caller [], .defined .main [], .external], ⟨"", loopCounters n⟩⟩ [.next, .next] =
      some (⟨[.external], ⟨"", loopCounters n⟩⟩, []) := rfl
  refine ⟨_, _, _, Trace.run_append (Trace.run_append hstart (Trace.run_rounds hround n)) hend, ?_⟩
  rw [List.append_nil, List.count_append, List.count_flatten, List.map_replicate,
    List.sum_replicate]
  simp

/-- The function that calls `g` has no name. -/
def unnamedCaller : Program ThreeFunctions :=
  threeFunctions "" [[.call .callee]] (by decide) (by decide)

/-- `f` calls `addCaller` itself. -/
def ownAddCaller : Program ThreeFunctions :=
  threeFunctions "f" [[.addCaller "h", .callPointer]] (by decide) (by decide)

/-- **Calls that are not counted**: in a function without a name, behind an `addCaller` of the program
itself, and beyond what a counter holds. -/
theorem calls_not_counted :
    (∃ shadow,
      Trace.run (step unnamedCaller.runOnModule) {}
          ([.enter (some .main)] ++ List.replicate 10 .next) =
        some (⟨[.external], shadow⟩,
          [.otherEntry .main, .directCall .main .caller, .directCall .caller .callee]) ∧
        shadow.callStackEntryNum ⟨"", "g"⟩ = 0 ∧
        shadow.callStackEntryNum ⟨"external", "g"⟩ = 1) ∧
    (∃ shadow,
      Trace.run (step ownAddCaller.runOnModule) {}
          ([.enter (some .main)] ++ List.replicate 4 .next ++ [.enter (some .callee)] ++
            List.replicate 5 .next) =
        some (⟨[.external], shadow⟩,
          [.otherEntry .main, .directCall .main .caller, .otherEntry .callee]) ∧
        shadow.callStackEntryNum ⟨"external", "g"⟩ = 0) ∧
    ∃ choices shadow events,
      Trace.run (step callLoop.runOnModule) {} choices = some (⟨[.external], shadow⟩, events) ∧
        events.count (.directCall .caller .callee) = 2147483648 ∧
        (shadow.callStackEntryNum ⟨"f", "g"⟩).toInt = -2147483648 := by
  refine ⟨⟨_, rfl, by decide, by decide⟩, ⟨_, rfl, by decide⟩, ?_⟩
  obtain ⟨choices, shadow, events, hrun, hcount⟩ := exists_callLoop_run 2147483648
  have hcounted := counted_of_run (P := callLoop) (fun f => by cases f <;> decide)
    (fun f => by cases f <;> decide) hrun
  refine ⟨choices, shadow, events, hrun, hcount, ?_⟩
  have h := hcounted.directCall .caller .callee rfl
  rw [hcount] at h
  exact (congrArg Int32.toInt h).trans (by decide)

end ShadowCallStack

end Vazgen
