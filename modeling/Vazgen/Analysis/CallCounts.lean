import Vazgen.Analysis.CallGraphWeights
import Mathlib.Data.List.DropRight

/-!
# The number of calls from one function to another

A call site in a loop should count as `LOOP_COST` calls, whatever stands before or behind it.  But
`collectFunctionCallSiteData` tests whether the number is `POS_INFINITY`, which a loop no longer sets
it to, so the call sites behind the last one in a loop are counted on top of it.

**`numCalls_eq_iff`**: the number is the right one exactly if the last call site is in a loop or none
is, and there are no more than `POS_INFINITY` in the second case.  The order of the call sites does
not matter exactly if all of them are in loops or none is.
-/

namespace Vazgen

namespace WeightAssigningHelper

variable {F G V N : Type}

/-- `getLoopFor` finds a loop of the caller around the call site. -/
def inLoop (loopInfoGetter : LoopInfoGetter F V) (callSite : CallSite F V) : Bool :=
  match loopInfoGetter callSite.getCaller with
  | none => false
  | some getLoopFor => getLoopFor callSite.getParent

/-- What one call site does to the number of calls of its caller. -/
def countCall (loopInfoGetter : LoopInfoGetter F V) (count : Nat) (callSite : CallSite F V) : Nat :=
  if inLoop loopInfoGetter callSite then loopCost
  else if count = posInfinity then count
  else count + 1

/-! ## The number after a list of call sites -/

section Count

variable (loopInfoGetter : LoopInfoGetter F V)

/-- The call sites after the last one that is in a loop. -/
def afterLastLoop (callSites : List (CallSite F V)) : List (CallSite F V) :=
  callSites.rtakeWhile fun callSite => !inLoop loopInfoGetter callSite

/-- By induction on the end of the list: the last call site either resets the number or adds to it. -/
theorem foldl_countCall (callSites : List (CallSite F V)) :
    callSites.foldl (countCall loopInfoGetter) 0 =
      if ∃ callSite ∈ callSites, inLoop loopInfoGetter callSite = true then
        min (loopCost + (afterLastLoop loopInfoGetter callSites).length) posInfinity
      else min callSites.length posInfinity := by
  induction callSites using List.reverseRecOn with
  | nil => rfl
  | append_singleton callSites callSite ih =>
    rw [List.foldl_concat, ih]
    unfold countCall afterLastLoop
    by_cases hloop : inLoop loopInfoGetter callSite = true
    · have hexists : ∃ site ∈ callSites ++ [callSite], inLoop loopInfoGetter site = true :=
        ⟨callSite, List.mem_append_right _ (List.mem_singleton_self _), hloop⟩
      rw [if_pos hloop, if_pos hexists, List.rtakeWhile_concat_neg _ _ _ (by simp [hloop])]
      rfl
    · have hexists : (∃ site ∈ callSites ++ [callSite], inLoop loopInfoGetter site = true) ↔
          ∃ site ∈ callSites, inLoop loopInfoGetter site = true := by
        simp [or_and_right, exists_or, hloop]
      rw [if_neg hloop, List.rtakeWhile_concat_pos _ _ _ (by simp [hloop]), List.length_append,
        List.length_append, List.length_singleton]
      simp only [hexists, posInfinity, loopCost]
      split <;> split <;> omega

theorem getLast?_inLoop_iff {callSites : List (CallSite F V)} :
    (∃ callSite ∈ callSites.getLast?, inLoop loopInfoGetter callSite = true) ↔
      (∃ callSite ∈ callSites, inLoop loopInfoGetter callSite = true) ∧
        afterLastLoop loopInfoGetter callSites = [] := by
  unfold afterLastLoop
  induction callSites using List.reverseRecOn with
  | nil => simp
  | append_singleton callSites callSite ih =>
    rw [List.rtakeWhile_concat, List.getLast?_concat]
    by_cases hloop : inLoop loopInfoGetter callSite = true
    · simp [hloop]
    · simp [hloop]

/-- The number is `LOOP_COST` or the number of call sites, whichever it should be, exactly if no call
site follows the last one in a loop, and not too many stand outside. -/
theorem foldl_countCall_eq_iff (callSites : List (CallSite F V)) :
    callSites.foldl (countCall loopInfoGetter) 0 =
        (if ∃ callSite ∈ callSites, inLoop loopInfoGetter callSite = true then loopCost
          else callSites.length) ↔
      if ∃ callSite ∈ callSites, inLoop loopInfoGetter callSite = true then
        ∃ callSite ∈ callSites.getLast?, inLoop loopInfoGetter callSite = true
      else callSites.length ≤ posInfinity := by
  rw [foldl_countCall, getLast?_inLoop_iff]
  split
  · next hloop =>
    rw [and_iff_right hloop, ← List.length_eq_zero_iff]
    simp only [loopCost, posInfinity]
    omega
  · simp only [posInfinity]
    omega

theorem afterLastLoop_eq_nil {callSites : List (CallSite F V)}
    (h : ∀ callSite ∈ callSites, inLoop loopInfoGetter callSite = true) :
    afterLastLoop loopInfoGetter callSites = [] := by
  refine List.rtakeWhile_eq_nil_iff.2 fun hne => ?_
  rw [h _ (List.getLast_mem hne)]
  decide

/-- A call site can be put last. -/
theorem exists_perm_concat {α : Type} {a : α} {l : List α} (ha : a ∈ l) :
    ∃ l', (l' ++ [a]).Perm l := by
  obtain ⟨s, t, rfl⟩ := List.append_of_mem ha
  refine ⟨s ++ t, ?_⟩
  rw [List.append_assoc]
  exact List.perm_append_comm.append_left s

/-- Every order of the call sites gives the same number exactly if they are alike. -/
theorem foldl_countCall_perm_iff (callSites : List (CallSite F V)) :
    (∀ callSites' : List (CallSite F V), callSites'.Perm callSites →
        callSites'.foldl (countCall loopInfoGetter) 0 =
          callSites.foldl (countCall loopInfoGetter) 0) ↔
      (∀ callSite ∈ callSites, inLoop loopInfoGetter callSite = true) ∨
        ∀ callSite ∈ callSites, inLoop loopInfoGetter callSite = false := by
  refine ⟨fun h => ?_, fun h callSites' hperm => ?_⟩
  · by_contra hmixed
    simp only [not_or, not_forall, Bool.not_eq_true, Bool.not_eq_false] at hmixed
    obtain ⟨⟨plain, hplain, hplainLoop⟩, site, hsite, hsiteLoop⟩ := hmixed
    -- the plain call last and the call in the loop last give different numbers
    obtain ⟨init, hinit⟩ := exists_perm_concat hplain
    obtain ⟨init', hinit'⟩ := exists_perm_concat hsite
    have hsame := (h _ hinit).trans (h _ hinit').symm
    have hlast : (init' ++ [site]).foldl (countCall loopInfoGetter) 0 = loopCost := by
      rw [List.foldl_concat, countCall, if_pos hsiteLoop]
    have hloop : ∃ callSite ∈ init ++ [plain], inLoop loopInfoGetter callSite = true :=
      ⟨site, hinit.mem_iff.2 hsite, hsiteLoop⟩
    have hplainLast := (foldl_countCall_eq_iff loopInfoGetter (init ++ [plain])).1 (by
      rw [if_pos hloop, hsame, hlast])
    rw [if_pos hloop, List.getLast?_concat] at hplainLast
    obtain ⟨callSite, hcallSite, hin⟩ := hplainLast
    cases hcallSite
    rw [hplainLoop] at hin
    cases hin
  · have hexists : (∃ callSite ∈ callSites', inLoop loopInfoGetter callSite = true) ↔
        ∃ callSite ∈ callSites, inLoop loopInfoGetter callSite = true := by
      simp only [hperm.mem_iff]
    rw [foldl_countCall, foldl_countCall]
    simp only [hexists, hperm.length_eq]
    split
    · next hloop =>
      have hall : ∀ callSite ∈ callSites, inLoop loopInfoGetter callSite = true := by
        refine h.resolve_right fun hnone => ?_
        obtain ⟨callSite, hcallSite, hin⟩ := hloop
        rw [hnone callSite hcallSite] at hin
        cases hin
      rw [afterLastLoop_eq_nil loopInfoGetter hall,
        afterLastLoop_eq_nil loopInfoGetter fun callSite hc => hall callSite (hperm.mem_iff.1 hc)]
    · rfl

end Count

/-! ## The numbers that are collected -/

section Collect

variable [DecidableEq F] (loopInfoGetter : LoopInfoGetter F V)

theorem countCallSite_self (calls : F → Option Nat) (callSite : CallSite F V) :
    countCallSite loopInfoGetter calls callSite callSite.getCaller =
      some (countCall loopInfoGetter ((calls callSite.getCaller).getD 0) callSite) := by
  unfold countCallSite
  rw [Function.update_self]
  rfl

/-- The call sites of other callers do not matter. -/
theorem foldl_countCallSite (callSites : List (CallSite F V)) (calls : F → Option Nat) (caller : F) :
    (callSites.foldl (countCallSite loopInfoGetter) calls caller).getD 0 =
      (callSites.filter fun callSite => callSite.getCaller = caller).foldl
        (countCall loopInfoGetter) ((calls caller).getD 0) := by
  induction callSites generalizing calls with
  | nil => rfl
  | cons callSite callSites ih =>
    rw [List.foldl_cons, ih]
    by_cases hcaller : callSite.getCaller = caller
    · subst hcaller
      rw [List.filter_cons_of_pos (by simp), List.foldl_cons, countCallSite_self]
      rfl
    · rw [List.filter_cons_of_neg (by simpa using hcaller)]
      unfold countCallSite
      rw [Function.update_of_ne (Ne.symm hcaller)]

/-- The number of calls of a function by a caller; the map starts every number at 0. -/
def numCalls (pdg : PDG F G V N) (callee caller : F) : Option Nat :=
  (collectFunctionCallSiteData pdg loopInfoGetter callee).map fun calls => (calls caller).getD 0

/-- The call sites between two functions. -/
def callSitesBetween (pdg : PDG F G V N) (callee caller : F) : List (CallSite F V) :=
  (pdg.getCallSites callee).filter fun callSite => callSite.getCaller = caller

theorem numCalls_eq {pdg : PDG F G V N} {callee : F} (hpdg : pdg.hasFunctionPDG callee = true)
    (caller : F) : numCalls loopInfoGetter pdg callee caller =
      some ((callSitesBetween pdg callee caller).foldl (countCall loopInfoGetter) 0) := by
  unfold numCalls collectFunctionCallSiteData
  rw [if_pos hpdg, Option.map_some, foldl_countCallSite]
  rfl

/-- The same graph with other call sites. -/
def withCallSites (pdg : PDG F G V N) (callSites : List (CallSite F V)) : PDG F G V N :=
  { pdg with getCallSites := fun _ => callSites }

theorem callSitesBetween_withCallSites (pdg : PDG F G V N) {callee caller : F}
    {callSites : List (CallSite F V)} (h : callSites.Perm (callSitesBetween pdg callee caller)) :
    callSitesBetween (withCallSites pdg callSites) callee caller = callSites :=
  List.filter_eq_self.2 fun _ hc => (List.mem_filter.1 (h.mem_iff.1 hc)).2

/-! ## Top theorem -/

/-- **When the number of calls is right, and when it does not depend on the order of the call
sites.** -/
theorem numCalls_eq_iff (pdg : PDG F G V N) {callee : F} (hpdg : pdg.hasFunctionPDG callee = true)
    (caller : F) :
    (numCalls loopInfoGetter pdg callee caller =
        some (if ∃ callSite ∈ callSitesBetween pdg callee caller,
            inLoop loopInfoGetter callSite = true then loopCost
          else (callSitesBetween pdg callee caller).length) ↔
      if ∃ callSite ∈ callSitesBetween pdg callee caller, inLoop loopInfoGetter callSite = true then
        ∃ callSite ∈ (callSitesBetween pdg callee caller).getLast?,
          inLoop loopInfoGetter callSite = true
      else (callSitesBetween pdg callee caller).length ≤ posInfinity) ∧
    ((∀ pdg' : PDG F G V N, pdg'.hasFunctionPDG callee = true →
        (callSitesBetween pdg' callee caller).Perm (callSitesBetween pdg callee caller) →
        numCalls loopInfoGetter pdg' callee caller = numCalls loopInfoGetter pdg callee caller) ↔
      (∀ callSite ∈ callSitesBetween pdg callee caller, inLoop loopInfoGetter callSite = true) ∨
        ∀ callSite ∈ callSitesBetween pdg callee caller,
          inLoop loopInfoGetter callSite = false) := by
  rw [numCalls_eq loopInfoGetter hpdg]
  constructor
  · rw [Option.some_inj, foldl_countCall_eq_iff]
  · rw [← foldl_countCall_perm_iff]
    refine ⟨fun h callSites' hperm => ?_, fun h pdg' hpdg' hperm => ?_⟩
    · have hsites := callSitesBetween_withCallSites pdg hperm
      have hsame := h (withCallSites pdg callSites') hpdg (by rw [hsites]; exact hperm)
      have hpdg' : (withCallSites pdg callSites').hasFunctionPDG callee = true := hpdg
      rw [numCalls_eq loopInfoGetter hpdg', hsites] at hsame
      exact Option.some.inj hsame
    · rw [numCalls_eq loopInfoGetter hpdg', h _ hperm]

end Collect

/-- `false` calls `true` in a loop (in the block `true`) and then once behind it. -/
def loopThenCallPDG : PDG Bool Empty Bool Unit where
  kind := fun _ => .instruction false
  isLLVMNode := fun _ => true
  getNodeValue := fun _ => none
  getParent := fun _ => some false
  isPointerArgOperand := fun _ => false
  outEdges := fun _ => []
  inEdges := fun _ => []
  hasFunctionPDG := fun _ => true
  getCallSites := fun f =>
    if f then [{ getInstruction := true, getCaller := false, getParent := true },
      { getInstruction := false, getCaller := false, getParent := false }] else []
  llvmNodes := fun _ => []
  getNode := fun _ _ => none
  getFormalArgNode := fun _ _ => none
  getGlobalVariableNode := fun _ => none

/-- The same calls with the loop last. -/
def callThenLoopPDG : PDG Bool Empty Bool Unit :=
  withCallSites loopThenCallPDG (loopThenCallPDG.getCallSites true).reverse

theorem loopThenCall_counts :
    numCalls (fun _ => some id) loopThenCallPDG true false = some 1001 ∧
      numCalls (fun _ => some id) loopThenCallPDG true false ≠
        some (if ∃ callSite ∈ callSitesBetween loopThenCallPDG true false,
            inLoop (fun _ => some id) callSite = true then loopCost
          else (callSitesBetween loopThenCallPDG true false).length) ∧
      numCalls (fun _ => some id) callThenLoopPDG true false = some 1000 := by
  decide

theorem callThenLoop_counts :
    numCalls (fun _ => some id) callThenLoopPDG true false =
      some (if ∃ callSite ∈ callSitesBetween callThenLoopPDG true false,
          inLoop (fun _ => some id) callSite = true then loopCost
        else (callSitesBetween callThenLoopPDG true false).length) := by
  have hpdg : callThenLoopPDG.hasFunctionPDG true = true := rfl
  exact (numCalls_eq_iff (fun _ => some id) callThenLoopPDG hpdg false).1.2 (by decide)

end WeightAssigningHelper

end Vazgen
