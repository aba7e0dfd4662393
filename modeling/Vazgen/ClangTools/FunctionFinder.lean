import Mathlib.Data.List.TakeWhile
import Vazgen.ClangTools.ClangTypes
import Vazgen.CodeGen.Selectors

/-!
# The functions that the code generator finds

A name is erased with its definition, and only then.  A requested function is found once exactly if
its definition comes before any declaration from a unit that does not define it, or if it has no
definition and one declaration (`foundOnce_iff`).
-/

namespace Vazgen

/-! ## The declarations of a function -/

namespace FunctionDecl

/-- The declaration is the definition of a function of the name. -/
def defines (name : String) (decl : FunctionDecl) : Bool :=
  decl.function.getName == name && decl.isDefined && decl.isThisDeclarationADefinition

/-- The declaration is one of the name in a unit that has no definition of it. -/
def declares (name : String) (decl : FunctionDecl) : Bool :=
  decl.function.getName == name && !decl.isDefined

end FunctionDecl

namespace FunctionFinder

open FunctionDecl

/-- The declarations that the finder keeps for a name: those up to the first definition, and it. -/
def entries (name : String) (decls : List FunctionDecl) : List FunctionDecl :=
  (decls.takeWhile fun decl => !decl.defines name).filter (·.declares name) ++
    (decls.find? (·.defines name)).toList

section Entries

variable {name : String} {decl : FunctionDecl} (decls : List FunctionDecl)

theorem entries_cons_of_defines (h : decl.defines name = true) :
    entries name (decl :: decls) = [decl] := by
  unfold entries
  rw [List.takeWhile_cons_of_neg, List.find?_cons_of_pos h]
  · rfl
  · rw [h]
    decide

theorem entries_cons_of_declares (h : decl.declares name = true) :
    entries name (decl :: decls) = decl :: entries name decls := by
  have hdefines : ¬ decl.defines name = true := by
    simp only [declares, defines, Bool.and_eq_true, Bool.not_eq_true'] at h ⊢
    simp [h.2]
  unfold entries
  rw [List.takeWhile_cons_of_pos, List.find?_cons_of_neg hdefines, List.filter_cons_of_pos h]
  · rfl
  · simpa using hdefines

theorem entries_cons_of_neither (hdefines : ¬ decl.defines name = true)
    (hdeclares : ¬ decl.declares name = true) :
    entries name (decl :: decls) = entries name decls := by
  unfold entries
  rw [List.takeWhile_cons_of_pos, List.find?_cons_of_neg hdefines,
    List.filter_cons_of_neg hdeclares]
  simpa using hdefines

theorem entries_cons_of_ne (h : decl.function.getName ≠ name) :
    entries name (decl :: decls) = entries name decls := by
  refine entries_cons_of_neither decls ?_ ?_
  · simp [defines, h]
  · simp [declares, h]

end Entries

section Run

variable (finder : FunctionFinder) {decl : FunctionDecl} {name : String}

/-- The entries of a name in the list of found functions. -/
def foundOf (finder : FunctionFinder) (name : String) : List Function :=
  finder.foundFunctions.filter fun f => f.getName == name

theorem foundOf_run_of_ne (h : decl.function.getName ≠ name) :
    (finder.run decl).foundOf name = finder.foundOf name := by
  unfold run
  split
  · rfl
  · split
    · rfl
    · simp [foundOf, h]

theorem mem_functionsNames_run_of_ne (h : decl.function.getName ≠ name) :
    name ∈ (finder.run decl).functionsNames ↔ name ∈ finder.functionsNames := by
  unfold run
  split
  · rfl
  · split
    · rfl
    · dsimp only
      split
      · rw [Finset.mem_erase]
        exact and_iff_right (Ne.symm h)
      · rfl

/-- What the finder still adds to the entries of a name. -/
def rest (name : String) (decls : List FunctionDecl) : List Function :=
  if name ∈ finder.functionsNames then (entries name decls).map (·.function) else []

/-- One callback: what was found stays, and a definition ends the search for its name. -/
theorem run_step (decl : FunctionDecl) (decls : List FunctionDecl) (name : String) :
    (finder.run decl).foundOf name ++ (finder.run decl).rest name decls =
      finder.foundOf name ++ finder.rest name (decl :: decls) := by
  by_cases hname : decl.function.getName = name
  case neg =>
    unfold rest
    rw [foundOf_run_of_ne finder hname, entries_cons_of_ne decls hname]
    simp only [mem_functionsNames_run_of_ne finder hname]
  case pos =>
    subst hname
    by_cases hmem : decl.function.getName ∈ finder.functionsNames
    case neg =>
      rw [run, if_pos hmem, rest, rest, if_neg hmem, if_neg hmem]
    case pos =>
      rw [run, if_neg (not_not_intro hmem)]
      cases hdefined : decl.isDefined with
      | false =>
        have hdeclares : decl.declares decl.function.getName = true := by
          simp [declares, hdefined]
        rw [rest, rest, if_pos hmem, entries_cons_of_declares decls hdeclares]
        simp [hmem, foundOf]
      | true =>
        cases hthis : decl.isThisDeclarationADefinition with
        | false =>
          have hneither : entries decl.function.getName (decl :: decls) =
              entries decl.function.getName decls :=
            entries_cons_of_neither decls (by simp [defines, hthis]) (by simp [declares, hdefined])
          simp [rest, hneither]
        | true =>
          have hdefines : decl.defines decl.function.getName = true := by
            simp [defines, hdefined, hthis]
          rw [rest, rest, if_pos hmem, entries_cons_of_defines decls hdefines]
          simp [foundOf]

/-- The whole run. -/
theorem foundOf_foldl_run (decls : List FunctionDecl) (name : String) :
    (decls.foldl run finder).foundOf name = finder.foundOf name ++ finder.rest name decls := by
  induction decls generalizing finder with
  | nil => simp [rest, entries]
  | cons decl decls ih => rw [List.foldl_cons, ih, run_step]

end Run

theorem filter_getFunctions {functions : Finset String} (decls : List FunctionDecl) {name : String}
    (hname : name ∈ functions) :
    (getFunctions functions decls).filter (fun f => f.getName == name) =
      (entries name decls).map (·.function) := by
  have hfound := foundOf_foldl_run { functionsNames := functions } decls name
  rw [rest, if_pos hname] at hfound
  exact hfound

/-! ## A function is found once -/

section Once

variable {name : String} {decls : List FunctionDecl}

theorem mem_of_mem_entries {decl : FunctionDecl} (h : decl ∈ entries name decls) :
    decl ∈ decls ∧ decl.function.getName = name := by
  rcases List.mem_append.1 h with h | h
  · obtain ⟨hmem, hdeclares⟩ := List.mem_filter.1 h
    refine ⟨(List.takeWhile_sublist _).subset hmem, ?_⟩
    simp only [declares, Bool.and_eq_true, beq_iff_eq] at hdeclares
    exact hdeclares.1
  · rw [Option.mem_toList] at h
    have hdefines := List.find?_some h
    refine ⟨List.mem_of_find?_eq_some h, ?_⟩
    simp only [defines, Bool.and_eq_true, beq_iff_eq] at hdefines
    exact hdefines.1.1

theorem entries_of_not_defines (h : ∀ decl ∈ decls, ¬ decl.defines name = true) :
    entries name decls = decls.filter (·.declares name) := by
  have hall : decls.takeWhile (fun decl => !decl.defines name) = decls :=
    List.takeWhile_eq_self_iff.2 fun decl hdecl => by simpa using h decl hdecl
  unfold entries
  rw [hall, List.find?_eq_none.2 h, Option.toList_none, List.append_nil]

theorem entries_append_cons {before : List FunctionDecl} {decl : FunctionDecl}
    (after : List FunctionDecl) (hdefines : decl.defines name = true)
    (hbefore : ∀ earlier ∈ before, ¬ earlier.defines name = true) :
    entries name (before ++ decl :: after) = before.filter (·.declares name) ++ [decl] := by
  induction before with
  | nil => exact entries_cons_of_defines after hdefines
  | cons earlier before ih =>
    have hstep := ih fun d hd => hbefore d (List.mem_cons_of_mem earlier hd)
    have hearlier := hbefore earlier List.mem_cons_self
    by_cases hdeclares : earlier.declares name = true
    · rw [List.cons_append, entries_cons_of_declares _ hdeclares, hstep,
        List.filter_cons_of_pos hdeclares, List.cons_append]
    · rw [List.cons_append, entries_cons_of_neither _ hearlier hdeclares, hstep,
        List.filter_cons_of_neg hdeclares]

theorem exists_entries_append_cons {before : List FunctionDecl} {decl : FunctionDecl}
    (after : List FunctionDecl) (hdefines : decl.defines name = true)
    (hfirst : ∀ earlier ∈ before, ¬ earlier.declares name = true) :
    ∃ entry, entries name (before ++ decl :: after) = [entry] := by
  induction before with
  | nil => exact ⟨decl, entries_cons_of_defines after hdefines⟩
  | cons earlier before ih =>
    rw [List.cons_append]
    by_cases hearlier : earlier.defines name = true
    · exact ⟨earlier, entries_cons_of_defines _ hearlier⟩
    · rw [entries_cons_of_neither _ hearlier (hfirst earlier List.mem_cons_self)]
      exact ih fun d hd => hfirst d (List.mem_cons_of_mem earlier hd)

/-- The first definition of a name. -/
theorem exists_first_definition (h : ∃ decl ∈ decls, decl.defines name = true) :
    ∃ before decl after, decls = before ++ decl :: after ∧ decl.defines name = true ∧
      ∀ earlier ∈ before, ¬ earlier.defines name = true := by
  have hsome : (decls.find? (·.defines name)).isSome := List.find?_isSome.2 h
  obtain ⟨decl, hfind⟩ := Option.isSome_iff_exists.1 hsome
  obtain ⟨hdefines, before, after, hdecls, hbefore⟩ := List.find?_eq_some_iff_append.1 hfind
  exact ⟨before, decl, after, hdecls, hdefines, fun d hd => by simpa using hbefore d hd⟩

end Once

/-- A definition of the name is presented before any declaration from a unit that does not define
it, or there is no definition and one declaration. -/
inductive SeenOnce (name : String) (decls : List FunctionDecl) : Prop where
  | definition (before : List FunctionDecl) (decl : FunctionDecl) (after : List FunctionDecl)
      (split : decls = before ++ decl :: after) (defines : decl.defines name = true)
      (first : ∀ earlier ∈ before, ¬ earlier.declares name = true)
  | declaration (undefined : ∀ decl ∈ decls, ¬ decl.defines name = true)
      (single : decls.countP (·.declares name) = 1)

theorem seenOnce_iff {name : String} {decls : List FunctionDecl} :
    SeenOnce name decls ↔ ∃ decl, entries name decls = [decl] := by
  constructor
  · rintro (⟨before, decl, after, rfl, hdefines, hfirst⟩ | ⟨hundefined, hsingle⟩)
    · exact exists_entries_append_cons after hdefines hfirst
    · rw [entries_of_not_defines hundefined, ← List.length_eq_one_iff,
        ← List.countP_eq_length_filter]
      exact hsingle
  · rintro ⟨decl, hentries⟩
    by_cases hdefined : ∃ decl ∈ decls, decl.defines name = true
    case pos =>
      obtain ⟨before, first, after, rfl, hdefines, hbefore⟩ := exists_first_definition hdefined
      rw [entries_append_cons after hdefines hbefore] at hentries
      have hnil : before.filter (·.declares name) = [] :=
        (List.append_eq_singleton_iff.1 hentries).elim (·.1) fun h =>
          absurd h.2 (List.cons_ne_nil _ _)
      exact .definition before first after rfl hdefines (List.filter_eq_nil_iff.1 hnil)
    case neg =>
      have hundefined : ∀ decl ∈ decls, ¬ decl.defines name = true :=
        fun decl hdecl h => hdefined ⟨decl, hdecl, h⟩
      rw [entries_of_not_defines hundefined] at hentries
      refine .declaration hundefined ?_
      rw [List.countP_eq_length_filter, hentries, List.length_singleton]

/-- There is one entry for every requested name that was presented, from a definition if one was,
and no other. -/
structure FoundOnce (functions : Finset String) (decls : List FunctionDecl) : Prop where
  once : ∀ name ∈ functions, (∃ decl ∈ decls, decl.function.getName = name) →
    ∃ decl ∈ decls,
      (getFunctions functions decls).filter (fun f => f.getName == name) = [decl.function] ∧
      ((∃ definition ∈ decls, definition.defines name = true) → decl.defines name = true)
  only : ∀ f ∈ getFunctions functions decls,
    f.getName ∈ functions ∧ ∃ decl ∈ decls, decl.function.getName = f.getName

theorem getFunctions_only {functions : Finset String} {decls : List FunctionDecl} {f : Function}
    (hf : f ∈ getFunctions functions decls) :
    f.getName ∈ functions ∧ ∃ decl ∈ decls, decl.function.getName = f.getName := by
  have hfound : f ∈ (decls.foldl run { functionsNames := functions }).foundOf f.getName :=
    List.mem_filter.2 ⟨hf, beq_self_eq_true _⟩
  rw [foundOf_foldl_run, foundOf, List.filter_nil, List.nil_append, rest] at hfound
  split at hfound
  case isTrue hname =>
    obtain ⟨decl, hdecl, -⟩ := List.mem_map.1 hfound
    exact ⟨hname, decl, mem_of_mem_entries hdecl⟩
  case isFalse => exact absurd hfound List.not_mem_nil

/-- **When every function is found once.** -/
theorem foundOnce_iff (functions : Finset String) (decls : List FunctionDecl) :
    FoundOnce functions decls ↔
      ∀ name ∈ functions, (∃ decl ∈ decls, decl.function.getName = name) →
        SeenOnce name decls := by
  constructor
  · intro h name hname hpresented
    obtain ⟨decl, -, hfound, -⟩ := h.once name hname hpresented
    rw [filter_getFunctions decls hname] at hfound
    obtain ⟨entry, hentry, -⟩ := List.map_eq_singleton_iff.1 hfound
    exact seenOnce_iff.2 ⟨entry, hentry⟩
  · intro h
    refine ⟨fun name hname hpresented => ?_, fun f hf => getFunctions_only hf⟩
    obtain ⟨decl, hentries⟩ := seenOnce_iff.1 (h name hname hpresented)
    have hmem : decl ∈ entries name decls := by
      rw [hentries]
      exact List.mem_singleton_self decl
    refine ⟨decl, (mem_of_mem_entries hmem).1, ?_, fun hdefined => ?_⟩
    · rw [filter_getFunctions decls hname, hentries, List.map_singleton]
    · -- the first definition is the last entry, so it is the one
      obtain ⟨before, first, after, rfl, hdefines, hbefore⟩ := exists_first_definition hdefined
      rw [entries_append_cons after hdefines hbefore] at hentries
      have hlast := congrArg List.getLast? hentries
      rw [List.getLast?_concat, List.getLast?_singleton, Option.some_inj] at hlast
      rw [← hlast]
      exact hdefines

/-- `int printf(char *)`, with a name for the parameter. -/
def printfDecl (paramName : String) : ClangDecl where
  getName := "printf"
  params := [(paramName, .pointer (.named "char"))]
  getReturnType := .named "int"

/-- `printf` is declared in two units, with its parameter named in one of them. -/
def printfDecls : List FunctionDecl :=
  [{ function := getFunctionFromClangDecl (printfDecl "") },
    { function := getFunctionFromClangDecl (printfDecl "__format") }]

/-- It is found twice. -/
theorem printfDecls_found_twice :
    getFunctions {"printf"} printfDecls = printfDecls.map (·.function) ∧
      ¬ FoundOnce {"printf"} printfDecls := by
  refine ⟨by rfl, fun h => ?_⟩
  obtain ⟨decl, -, hfound, -⟩ := h.once "printf" (by decide) ⟨printfDecls.head (by decide),
    List.head_mem _, by rfl⟩
  have hlength := congrArg List.length hfound
  rw [List.length_singleton] at hlength
  exact absurd hlength (by decide)

end FunctionFinder

end Vazgen
