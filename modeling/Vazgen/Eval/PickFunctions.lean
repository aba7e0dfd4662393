import Vazgen.Eval.AnnotationCreator
import Vazgen.Lib.Selection

/-!
# Picking the functions to annotate

The evaluation annotates a percentage of the functions of a module.  They are shuffled, and then drawn
from the functions that are left, which stand in front of those already drawn.

**`exists_pickFunctions`**: no remainder is taken by zero and no index is out of range, and the picked
functions are different ones, as many as the percentage says.
-/

namespace Vazgen

variable {F G V J Text R : Type}

namespace AnnotationCreator

/-! ## Model -/

/-- The functions that can be annotated. -/
def eligibleFunctions (M : Module F G V) : List F :=
  M.functions.filter fun f => !M.isDeclaration f && !M.isIntrinsic f && M.getName f != "main"

/-- The variables of the loop of `pickFunctions`. -/
structure PickState (F : Type) where
  allFunctions : List F
  numOfAllFunctions : Nat
  functionsToAnnotate : List F := []

/-- The body of the loop; it fails at a remainder by zero and at an index out of range. -/
def pickFunction (rand : Nat → Nat) (s : PickState F) (i : Nat) : Option (PickState F) :=
  if s.numOfAllFunctions = 0 then none
  else do
    let idx := rand i % s.numOfAllFunctions
    let f ← s.allFunctions[idx]?
    let allFunctions ← Selection.swap s.allFunctions idx (s.numOfAllFunctions - 1)
    return { allFunctions := allFunctions, numOfAllFunctions := s.numOfAllFunctions - 1
             functionsToAnnotate := s.functionsToAnnotate ++ [f] }

/-- `pickFunctions`: `rand` gives the random numbers one after the other. -/
def pickFunctions (shuffle : List F → List F) (rand : Nat → Nat) (M : Module F G V)
    (percentage : Nat) : Option (List F) :=
  if percentage = 0 then some []
  else do
    let allFunctions := shuffle (eligibleFunctions M)
    let num := allFunctions.length * percentage / 100
    let s ← (List.range num).foldlM (pickFunction rand)
      { allFunctions := allFunctions, numOfAllFunctions := allFunctions.length }
    return s.functionsToAnnotate

/-- `runOnModule`: the text that is written. -/
def runOnModule (lib : JsonLibrary J Text R) (shuffle : List F → List F) (rand : Nat → Nat)
    (M : Module F G V) (percentage : Nat) : Option Text := do
  let functions ← pickFunctions shuffle rand M percentage
  dumpAnnotationFile lib M functions

/-! ## The loop -/

/-- What has been picked and what is left, after `n` rounds. -/
structure Picking (original : List F) (n : Nat) (s : PickState F) : Prop where
  drawn : Selection.Drawn original s.allFunctions s.numOfAllFunctions s.functionsToAnnotate
  picked : s.functionsToAnnotate.length = n

theorem Picking.exists_step {original : List F} {n : Nat} {s : PickState F}
    (h : Picking original n s) (hn : n < original.length) (rand : Nat → Nat) (i : Nat) :
    ∃ s', pickFunction rand s i = some s' ∧ Picking original (n + 1) s' := by
  have hleft : 0 < s.numOfAllFunctions := by
    have := h.drawn.size_add
    have := h.picked
    omega
  obtain ⟨f, all, hf, hswap, hdrawn⟩ := h.drawn.exists_step (Nat.mod_lt (rand i) hleft)
  refine ⟨{ allFunctions := all, numOfAllFunctions := s.numOfAllFunctions - 1
            functionsToAnnotate := s.functionsToAnnotate ++ [f] }, ?_, hdrawn, ?_⟩
  · unfold pickFunction
    rw [if_neg hleft.ne']
    simp only [hf, hswap, Option.bind_eq_bind, Option.bind_some]
    rfl
  · rw [List.length_append, h.picked]
    rfl

theorem Picking.exists_loop {original : List F} {s : PickState F} (h : Picking original 0 s)
    (rand : Nat → Nat) (num : Nat) (hnum : num ≤ original.length) :
    ∃ s', (List.range num).foldlM (pickFunction rand) s = some s' ∧ Picking original num s' := by
  induction num with
  | zero => exact ⟨s, rfl, h⟩
  | succ num ih =>
    obtain ⟨s', hs', h'⟩ := ih (by omega)
    obtain ⟨t, ht, hpicking⟩ := h'.exists_step (by omega) rand num
    refine ⟨t, ?_, hpicking⟩
    rw [List.range_succ, List.foldlM_append, hs']
    exact (Option.bind_some _ _).trans (by rw [List.foldlM_cons, ht]; rfl)

variable {shuffle : List F → List F} {M : Module F G V} {percentage : Nat}

/-- No round fails, and there are as many as the percentage says. -/
theorem exists_picking (hpercentage : percentage ≤ 100) (hshuffle : ∀ l, (shuffle l).Perm l)
    (rand : Nat → Nat) :
    ∃ s : PickState F, pickFunctions shuffle rand M percentage = some s.functionsToAnnotate ∧
      Picking (eligibleFunctions M) ((eligibleFunctions M).length * percentage / 100) s := by
  have hperm := hshuffle (eligibleFunctions M)
  have hstart : Picking (eligibleFunctions M) 0
      { allFunctions := shuffle (eligibleFunctions M)
        numOfAllFunctions := (shuffle (eligibleFunctions M)).length } :=
    ⟨Selection.Drawn.start hperm, rfl⟩
  unfold pickFunctions
  by_cases hzero : percentage = 0
  · subst hzero
    exact ⟨_, if_pos rfl, by rw [Nat.mul_zero, Nat.zero_div]; exact hstart⟩
  have hnum : (eligibleFunctions M).length * percentage / 100 ≤ (eligibleFunctions M).length :=
    Nat.div_le_of_le_mul (by rw [Nat.mul_comm]; exact Nat.mul_le_mul_right _ hpercentage)
  obtain ⟨s, hs, hpicking⟩ := hstart.exists_loop rand _ hnum
  refine ⟨s, ?_, hpicking⟩
  rw [if_neg hzero]
  dsimp only
  rw [hperm.length_eq] at hs ⊢
  rw [hs]
  rfl

/-- The annotation file is written for every module. -/
theorem exists_runOnModule (lib : JsonLibrary J Text R) (hpercentage : percentage ≤ 100)
    (hshuffle : ∀ l, (shuffle l).Perm l) (rand : Nat → Nat) :
    ∃ text, runOnModule lib shuffle rand M percentage = some text := by
  obtain ⟨s, hs, -⟩ := exists_picking (M := M) hpercentage hshuffle rand
  obtain ⟨text, _, _, _, _, htext, -⟩ := exists_dumpAnnotationFile lib M s.functionsToAnnotate
  refine ⟨text, ?_⟩
  unfold runOnModule
  rw [hs]
  exact htext

/-! ## Top theorem -/

/-- **The functions are picked without replacement**, for every shuffle and all random numbers. -/
theorem exists_pickFunctions (hM : M.functions.Nodup) (hpercentage : percentage ≤ 100)
    (hshuffle : ∀ l, (shuffle l).Perm l) (rand : Nat → Nat) :
    ∃ picked, pickFunctions shuffle rand M percentage = some picked ∧
      picked.length = (eligibleFunctions M).length * percentage / 100 ∧ picked.Nodup ∧
      ∀ f ∈ picked, f ∈ M.functions ∧ M.isDeclaration f = false ∧ M.isIntrinsic f = false ∧
        M.getName f ≠ "main" := by
  obtain ⟨s, hs, hpicking⟩ := exists_picking (M := M) hpercentage hshuffle rand
  refine ⟨s.functionsToAnnotate, hs, hpicking.picked, hpicking.drawn.nodup (hM.filter _),
    fun f hf => ?_⟩
  obtain ⟨hmem, heligible⟩ := List.mem_filter.1 (hpicking.drawn.subset hf)
  simp only [Bool.and_eq_true, Bool.not_eq_true', bne_iff_ne] at heligible
  exact ⟨hmem, heligible.1.1, heligible.1.2, heligible.2⟩

/-- A module of eight functions, of which `main`, a declaration and an intrinsic cannot be picked. -/
def eightFunctions : Module (Fin 8) Empty Unit where
  functions := List.finRange 8
  globals := []
  getName := fun f => if f.val = 0 then "main" else "f" ++ toString f
  isDeclaration := fun f => f.val = 1
  isIntrinsic := fun f => f.val = 2
  argTypes := fun _ => []
  getReturnType := fun _ => .void
  functionSize := fun _ => 1
  returnInsts := fun _ => []
  valueClass := fun _ => .other

/-- Of the functions `7, 6, 5, 4, 3` the rounds draw the last one of five, the last one of the four
that are left, and the first of three. -/
theorem eightFunctions_picked :
    pickFunctions List.reverse (fun i => 7 * i + 4) eightFunctions 60 = some [3, 4, 7] ∧
    ∃ picked, pickFunctions List.reverse (fun i => 7 * i + 4) eightFunctions 60 = some picked ∧
      picked.length = 3 ∧ picked.Nodup ∧
      ∀ f ∈ picked, f ∈ eightFunctions.functions ∧ eightFunctions.isDeclaration f = false ∧
        eightFunctions.isIntrinsic f = false ∧ eightFunctions.getName f ≠ "main" :=
  ⟨by decide, exists_pickFunctions (M := eightFunctions) (by decide) (by decide) List.reverse_perm _⟩

end AnnotationCreator

end Vazgen
