import Mathlib.Data.List.Basic

/-!
# Instrumenting a program for the shadow call stack

`ShadowCallStackGeneratorPass` puts a call of `addCaller` in front of each direct call, and a call of
`addCallee` at the entry of each function but `main`.  A declaration has no entry: its `addCallee`
follows `addCaller` at the call.

**`instrumented_body`**: this is the shape of every block of an instrumented program.
-/

namespace Vazgen

variable {F : Type}

namespace ShadowCallStackGenerator

/-! ## Model -/

/-- The instructions that the pass tells apart. -/
inductive Inst (F : Type)
  /-- A call or an invoke with a called function. -/
  | call (callee : F)
  /-- A call or an invoke through a pointer. -/
  | callPointer
  /-- A call of `m_addCallerF`. -/
  | addCaller (name : String)
  /-- A call of `m_addCalleeF`. -/
  | addCallee (name : String)
  | other
  deriving DecidableEq

/-- The functions of a module but for `addCaller` and `addCallee`, with their blocks; the first block is
the entry block. -/
structure Program (F : Type) where
  getName : F → String
  isIntrinsic : F → Bool
  body : F → List (List (Inst F))
  /-- Only functions without a name can share it. -/
  getName_inj : ∀ f g, getName f = getName g → getName f ≠ "" → f = g
  intrinsic_body : ∀ f, isIntrinsic f → body f = []

def Program.isDeclaration (P : Program F) (f : F) : Bool := (P.body f).isEmpty

theorem Program.isDeclaration_of_isIntrinsic (P : Program F) {f : F} (hf : P.isIntrinsic f = true) :
    P.isDeclaration f = true :=
  List.isEmpty_iff.2 (P.intrinsic_body f hf)

/-- What stands in the place of an instruction of `f` after the loop over the blocks. -/
def Program.instrument (P : Program F) (f : F) : Inst F → List (Inst F)
  | .call callee =>
    if P.isIntrinsic callee then [.call callee]
    else if P.isDeclaration callee then
      [.addCaller (P.getName f), .addCallee (P.getName callee), .call callee]
    else [.addCaller (P.getName f), .call callee]
  | i => [i]

/-- `addCallee(F)`, at the begin of the entry block. -/
def Program.addCallee (P : Program F) (f : F) :
    List (List (Inst F)) → List (List (Inst F))
  | [] => []
  | entry :: blocks => (.addCallee (P.getName f) :: entry) :: blocks

def Program.runOnFunction (P : Program F) (f : F) : List (List (Inst F)) :=
  if P.isIntrinsic f || P.isDeclaration f then P.body f
  else
    let blocks := if P.getName f ≠ "main" then P.addCallee f (P.body f) else P.body f
    blocks.map fun block => block.flatMap (P.instrument f)

def Program.runOnModule (P : Program F) : Program F where
  getName := P.getName
  isIntrinsic := P.isIntrinsic
  body := P.runOnFunction
  getName_inj := P.getName_inj
  intrinsic_body f hf := by
    rw [Program.runOnFunction, if_pos (by rw [hf]; rfl)]
    exact P.intrinsic_body f hf

/-! ## The shape of the instrumented blocks -/

/-- Instructions of an instrumented `f`, the entry's `addCallee` apart. -/
inductive Instrumented (P : Program F) (f : F) : List (Inst F) → Prop
  | nil : Instrumented P f []
  | other {code} : Instrumented P f code → Instrumented P f (.other :: code)
  | callPointer {code} : Instrumented P f code → Instrumented P f (.callPointer :: code)
  | intrinsic {code g} : P.isIntrinsic g = true → Instrumented P f code →
      Instrumented P f (.call g :: code)
  | declared {code g} : P.isIntrinsic g = false → P.isDeclaration g = true → Instrumented P f code →
      Instrumented P f (.addCaller (P.getName f) :: .addCallee (P.getName g) :: .call g :: code)
  | defined {code g} : P.isDeclaration g = false → P.getName g ≠ "main" → Instrumented P f code →
      Instrumented P f (.addCaller (P.getName f) :: .call g :: code)

/-- Neither a call of `main` nor one of the two functions that the pass inserts. -/
def Program.Plain (P : Program F) : Inst F → Prop
  | .call g => P.getName g ≠ "main"
  | .addCaller _ => False
  | .addCallee _ => False
  | .callPointer => True
  | .other => True

instance (P : Program F) : DecidablePred P.Plain
  | .call g => inferInstanceAs (Decidable (P.getName g ≠ "main"))
  | .addCaller _ => .isFalse id
  | .addCallee _ => .isFalse id
  | .callPointer => .isTrue trivial
  | .other => .isTrue trivial

def Program.AllPlain (P : Program F) : Prop := ∀ f, ∀ block ∈ P.body f, ∀ i ∈ block, P.Plain i

variable {P : Program F} {f g : F}

theorem instrumented_flatMap {block : List (Inst F)} (h : ∀ i ∈ block, P.Plain i) :
    Instrumented P f (block.flatMap (P.instrument f)) := by
  induction block with
  | nil => exact .nil
  | cons i block ih =>
    obtain ⟨hi, hblock⟩ := List.forall_mem_cons.1 h
    have ih := ih hblock
    rw [List.flatMap_cons]
    cases i with
    | call g =>
      dsimp only [Program.instrument]
      split
      · exact .intrinsic ‹_› ih
      · rename_i hintrinsic
        split
        · exact .declared (Bool.not_eq_true _ ▸ hintrinsic) ‹_› ih
        · rename_i hdeclaration
          exact .defined (Bool.not_eq_true _ ▸ hdeclaration) hi ih
    | callPointer => exact .callPointer ih
    | addCaller name => exact hi.elim
    | addCallee name => exact hi.elim
    | other => exact .other ih

theorem isDeclaration_runOnModule (f : F) : P.runOnModule.isDeclaration f = P.isDeclaration f := by
  unfold Program.isDeclaration Program.runOnModule Program.runOnFunction
  dsimp only
  split
  · rfl
  · rw [List.isEmpty_map]
    split
    · cases P.body f <;> rfl
    · rfl

theorem runOnModule_body_of_isDeclaration (hf : P.isDeclaration f = true) :
    P.runOnModule.body f = [] := by
  rwa [← isDeclaration_runOnModule, Program.isDeclaration, List.isEmpty_iff] at hf

/-- What the entry of `f` starts with. -/
def Program.entryCall (P : Program F) (f : F) : List (Inst F) :=
  if P.getName f ≠ "main" then [.addCallee (P.getName f)] else []

/-- **The blocks of a defined function**, if no instruction is a call of `main` or of the inserted
functions. -/
theorem instrumented_body (hplain : P.AllPlain) (hf : P.isDeclaration f = false) :
    ∃ entry blocks, P.runOnModule.body f = (P.entryCall f ++ entry) :: blocks ∧
      ∀ block ∈ entry :: blocks, Instrumented P f block := by
  have hintrinsic : P.isIntrinsic f = false := by
    cases h : P.isIntrinsic f with
    | false => rfl
    | true =>
      rw [P.isDeclaration_of_isIntrinsic h] at hf
      cases hf
  obtain ⟨first, others, hbody⟩ : ∃ first others, P.body f = first :: others := by
    cases hbody : P.body f with
    | nil =>
      rw [Program.isDeclaration, hbody] at hf
      cases hf
    | cons first others => exact ⟨first, others, rfl⟩
  have hplain := hplain f
  rw [hbody] at hplain
  refine ⟨first.flatMap (P.instrument f), others.map fun block => block.flatMap (P.instrument f),
    ?_, ?_⟩
  · unfold Program.runOnModule Program.runOnFunction Program.entryCall
    dsimp only
    rw [if_neg (by rw [hintrinsic, hf]; decide), hbody]
    split <;> rfl
  · intro block hblock
    rcases List.mem_cons.1 hblock with rfl | hblock
    · exact instrumented_flatMap (hplain first List.mem_cons_self)
    · obtain ⟨original, horiginal, rfl⟩ := List.mem_map.1 hblock
      exact instrumented_flatMap (hplain original (List.mem_cons_of_mem _ horiginal))

/-- The instructions behind a call. -/
theorem Instrumented.of_drop {code rest : List (Inst F)} (h : Instrumented P f code) (n : Nat)
    (hdrop : code.drop n = .call g :: rest) : Instrumented P f rest := by
  induction h generalizing n with
  | nil => cases n <;> cases hdrop
  | other _ ih =>
    match n with
    | 0 => cases hdrop
    | n + 1 => exact ih n hdrop
  | callPointer _ ih =>
    match n with
    | 0 => cases hdrop
    | n + 1 => exact ih n hdrop
  | intrinsic _ hcode ih =>
    match n with
    | 0 =>
      cases hdrop
      exact hcode
    | n + 1 => exact ih n hdrop
  | declared _ _ hcode ih =>
    match n with
    | 0 => cases hdrop
    | 1 => cases hdrop
    | 2 =>
      cases hdrop
      exact hcode
    | n + 3 => exact ih n hdrop
  | defined _ _ hcode ih =>
    match n with
    | 0 => cases hdrop
    | 1 =>
      cases hdrop
      exact hcode
    | n + 2 => exact ih n hdrop

/-- The same in the entry block, whose `addCallee` is not a call of the program. -/
theorem Instrumented.of_drop_entry {entry rest : List (Inst F)} (h : Instrumented P f entry) (n : Nat)
    (hdrop : (P.entryCall f ++ entry).drop n = .call g :: rest) : Instrumented P f rest := by
  unfold Program.entryCall at hdrop
  split at hdrop
  · cases n with
    | zero => cases hdrop
    | succ n => exact h.of_drop n hdrop
  · exact h.of_drop n hdrop

end ShadowCallStackGenerator

end Vazgen
