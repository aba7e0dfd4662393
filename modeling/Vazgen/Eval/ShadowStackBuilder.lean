import Vazgen.Eval.ShadowCallStackGenerator
import Vazgen.Lib.MachineInt
import Vazgen.Lib.Trace

/-!
# The shadow call stack of a running program

Instrumented code leaves its caller in one slot, which the next `addCallee` takes.  A function that is
entered from elsewhere finds the slot empty, and is counted as called from `external`.
-/

namespace Vazgen

variable {F : Type} [DecidableEq F]

open ShadowCallStackGenerator MachineInt

/-! ## Counters -/

structure CallStackEntry where
  caller : String
  callee : String
  deriving DecidableEq

/-- The counters are all 0 at first; `m_callStackEntryNum[entry] += 1` wraps around. -/
structure ShadowCallStack where
  currentCaller : String := ""
  callStackEntryNum : CallStackEntry → Int32 := fun _ => 0

namespace ShadowCallStack

def increment (num : CallStackEntry → Int32) (entry : CallStackEntry) : CallStackEntry → Int32 :=
  fun e => if e = entry then num e + 1 else num e

def addCaller (s : ShadowCallStack) (caller : String) : ShadowCallStack :=
  { s with currentCaller := caller }

def addCallee (s : ShadowCallStack) (callee : String) : ShadowCallStack :=
  if s.currentCaller.isEmpty then
    { s with callStackEntryNum := increment s.callStackEntryNum ⟨"external", callee⟩ }
  else
    { currentCaller := ""
      callStackEntryNum := increment s.callStackEntryNum ⟨s.currentCaller, callee⟩ }

theorem addCallee_of_empty (num : CallStackEntry → Int32) (callee : String) :
    addCallee ⟨"", num⟩ callee = ⟨"", increment num ⟨"external", callee⟩⟩ := rfl

theorem addCallee_of_ne {caller : String} (h : caller ≠ "") (num : CallStackEntry → Int32)
    (callee : String) : addCallee ⟨caller, num⟩ callee = ⟨"", increment num ⟨caller, callee⟩⟩ := by
  unfold addCallee
  rw [if_neg (by rwa [String.isEmpty_iff])]

/-- What is to be counted: a direct call of `callee` in `caller`, and an entry of `callee` from
elsewhere. -/
inductive Event (F : Type)
  | directCall (caller callee : F)
  | otherEntry (callee : F)
  deriving DecidableEq

/-- The counters are the numbers of the events. -/
structure Counted (P : Program F) (events : List (Event F)) (num : CallStackEntry → Int32) : Prop where
  directCall : ∀ f g, P.isIntrinsic g = false →
    num ⟨P.getName f, P.getName g⟩ = Int32.ofNat (events.count (.directCall f g))
  otherEntry : ∀ g, P.isDeclaration g = false → P.getName g ≠ "main" →
    num ⟨"external", P.getName g⟩ = Int32.ofNat (events.count (.otherEntry g))

/-- All functions have names, and none is named `external`. -/
def Named (P : Program F) : Prop := ∀ f, P.getName f ≠ "" ∧ P.getName f ≠ "external"

section Counting

variable {P : Program F} {events : List (Event F)} {num : CallStackEntry → Int32} {f g : F}

theorem counted_nil (P : Program F) : Counted P [] fun _ => 0 :=
  ⟨fun _ _ _ => rfl, fun _ _ _ => rfl⟩

/-- A direct call is counted under the two names. -/
theorem Counted.addDirectCall (h : Counted P events num) (hP : Named P) (f g : F) :
    Counted P (events ++ [.directCall f g]) (increment num ⟨P.getName f, P.getName g⟩) := by
  have hinj : ∀ f' g', P.getName f' = P.getName g' → f' = g' := fun f' g' hname =>
    P.getName_inj f' g' hname (hP f').1
  constructor
  · intro f' g' hg'
    rw [ofNat_count_concat, increment, h.directCall f' g' hg']
    refine if_congr ?_ rfl rfl
    constructor
    · rintro heq
      rw [CallStackEntry.mk.injEq] at heq
      rw [hinj _ _ heq.1, hinj _ _ heq.2]
    · rintro ⟨⟩
      rfl
  · intro g' hg' hmain
    rw [ofNat_count_concat, increment, h.otherEntry g' hg' hmain]
    rw [if_neg (by simpa using fun hname => absurd hname.symm (hP f).2), if_neg nofun]

/-- An entry from elsewhere is counted as a call from `external`. -/
theorem Counted.addOtherEntry (h : Counted P events num) (hP : Named P) (g : F) :
    Counted P (events ++ [.otherEntry g]) (increment num ⟨"external", P.getName g⟩) := by
  constructor
  · intro f' g' hg'
    rw [ofNat_count_concat, increment, h.directCall f' g' hg']
    rw [if_neg (by simpa using fun hname => absurd hname (hP f').2), if_neg nofun]
  · intro g' hg' hmain
    rw [ofNat_count_concat, increment, h.otherEntry g' hg' hmain]
    refine if_congr ?_ rfl rfl
    constructor
    · intro heq
      rw [CallStackEntry.mk.injEq] at heq
      rw [P.getName_inj _ _ heq.2 (hP g').1]
    · rintro ⟨⟩
      rfl

/-- What no counter is there for: a call of an intrinsic function, and an entry of `main`. -/
theorem Counted.directCall_intrinsic (h : Counted P events num) (hg : P.isIntrinsic g = true) (f : F) :
    Counted P (events ++ [.directCall f g]) num := by
  constructor
  · intro f' g' hg'
    rw [ofNat_count_concat, h.directCall f' g' hg', if_neg]
    rintro ⟨⟩
    rw [hg] at hg'
    cases hg'
  · intro g' hg' hmain
    rw [ofNat_count_concat, h.otherEntry g' hg' hmain, if_neg nofun]

theorem Counted.otherEntry_main (h : Counted P events num) (hg : P.getName g = "main") :
    Counted P (events ++ [.otherEntry g]) num := by
  constructor
  · intro f' g' hg'
    rw [ofNat_count_concat, h.directCall f' g' hg', if_neg nofun]
  · intro g' hg' hmain
    rw [ofNat_count_concat, h.otherEntry g' hg' hmain, if_neg]
    rintro ⟨⟩
    exact hmain hg

end Counting

end ShadowCallStack

end Vazgen
