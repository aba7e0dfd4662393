import Vazgen.Eval.ContextSwitchesEvalData
import Vazgen.Eval.SecurityData
import Vazgen.Eval.ShadowStackBuilder
import Vazgen.Lib.Fields

/-!
# The file of the shadow call stack

At its end an instrumented program writes its counters, a line for each pair of a caller and a callee.
The script that evaluates the context switches splits the lines at blanks and parentheses; what is
short of a field is a call from `external` to it.

**`parseCallEntries_dump_iff`**: it reads what was written exactly if no name is empty or has a blank or
a parenthesis in it.
-/

namespace Vazgen

open Fields

/-! ## Model -/

/-- A line of the file. -/
def ShadowCallStack.entryLine (callEntry : CallStackEntry × Int32) : List Char :=
  '(' :: callEntry.1.caller.toList ++ ' ' :: callEntry.1.callee.toList ++
    ')' :: ' ' :: ScanInt.print callEntry.2.toInt

/-- `dumpShadowCallStack`, for the entries in the order of the hash table. -/
def ShadowCallStack.dumpShadowCallStack (entries : List (CallStackEntry × Int32)) : List Char :=
  entries.flatMap fun callEntry => entryLine callEntry ++ ['\n']

namespace ContextSwitchesEvalData

/-- What `re.split('\(|\)|\s+', …)` splits at; the empty pieces are filtered out. -/
def isSeparator (c : Char) : Bool := c = '(' || c = ')' || ScanInt.isSpace c

/-- The body of the loop over the lines.  The outer `none` is an exception, the inner one
`continue`. -/
def parseLine (stackLine : List Char) : Option (Option CallStackEntry) :=
  match fields isSeparator stackLine with
  | [] => some none
  | [_] => some none
  | [caller, callee, callNum] =>
    (SecurityData.parseInt callNum).map fun n =>
      some { caller := String.ofList caller, callee := String.ofList callee, callNum := n }
  | callee :: callNum :: _ =>
    (SecurityData.parseInt callNum).map fun n =>
      some { caller := "external", callee := String.ofList callee, callNum := n }

/-- `parse_call_entries`, for the text of the file if there is one. -/
def parseCallEntries : Option (List Char) → Option (List CallStackEntry)
  | none => some []
  | some text => ((text.splitOn '\n').mapM parseLine).map List.reduceOption

/-! ## Lemmas -/

/-- The name is a word of a line. -/
def IsName (name : String) : Prop := IsWord isSeparator name.toList

instance : DecidablePred IsName := fun _ => inferInstanceAs (Decidable (IsWord _ _))

/-- An entry as the script has it. -/
def entryOf (callEntry : Vazgen.CallStackEntry × Int32) : CallStackEntry where
  caller := callEntry.1.caller
  callee := callEntry.1.callee
  callNum := callEntry.2.toInt

theorem isSeparator_of_isDigit {c : Char} (h : c.isDigit = true) : isSeparator c = false := by
  have hspace := (ScanInt.isDigit_cases h).1
  unfold isSeparator
  rw [hspace]
  simp only [Bool.or_false, Bool.or_eq_false_iff, decide_eq_false_iff_not]
  constructor
  · rintro rfl
    cases h
  · rintro rfl
    cases h

theorem isWord_print (n : Int) : IsWord isSeparator (ScanInt.print n) := by
  cases n with
  | ofNat n =>
    exact ⟨Nat.toDigits_ne_nil, fun c hc => isSeparator_of_isDigit (ScanInt.isDigit_toDigits c hc)⟩
  | negSucc n =>
    refine ⟨List.cons_ne_nil _ _, List.forall_mem_cons.2 ⟨by decide, fun c hc => ?_⟩⟩
    exact isSeparator_of_isDigit (ScanInt.isDigit_toDigits c hc)

theorem IsWord.notMem_newline {w : List Char} (h : IsWord isSeparator w) : '\n' ∉ w := fun hmem =>
  Bool.false_ne_true ((h.2 '\n' hmem).symm.trans (by decide))

/-- The fields of a line are those of its names, and the number. -/
theorem fields_entryLine (callEntry : Vazgen.CallStackEntry × Int32) :
    fields isSeparator (ShadowCallStack.entryLine callEntry) =
      fields isSeparator callEntry.1.caller.toList ++ (fields isSeparator callEntry.1.callee.toList ++
        [ScanInt.print callEntry.2.toInt]) := by
  unfold ShadowCallStack.entryLine
  rw [List.append_assoc, List.cons_append, fields_cons (by decide), List.cons_append,
    fields_append_cons (by decide), fields_append_cons (by decide), fields_cons (by decide),
    fields_eq_singleton (isWord_print _)]

theorem parseLine_entryLine {callEntry : Vazgen.CallStackEntry × Int32}
    (hcaller : IsName callEntry.1.caller) (hcallee : IsName callEntry.1.callee) :
    parseLine (ShadowCallStack.entryLine callEntry) = some (some (entryOf callEntry)) := by
  have hnum : SecurityData.parseInt (ScanInt.print callEntry.2.toInt) = some callEntry.2.toInt := by
    rw [← SecurityData.toList_toString, SecurityData.parseInt_toString]
  unfold parseLine
  rw [fields_entryLine, fields_eq_singleton hcaller, fields_eq_singleton hcallee]
  simp [hnum, entryOf]

/-- The line ends where it was ended. -/
theorem notMem_entryLine {callEntry : Vazgen.CallStackEntry × Int32}
    (hcaller : IsName callEntry.1.caller) (hcallee : IsName callEntry.1.callee) :
    '\n' ∉ ShadowCallStack.entryLine callEntry := by
  unfold ShadowCallStack.entryLine
  simp [IsWord.notMem_newline hcaller, IsWord.notMem_newline hcallee,
    IsWord.notMem_newline (isWord_print callEntry.2.toInt)]

theorem parseCallEntries_dump {entries : List (Vazgen.CallStackEntry × Int32)}
    (h : ∀ callEntry ∈ entries, IsName callEntry.1.caller ∧ IsName callEntry.1.callee) :
    parseCallEntries (some (ShadowCallStack.dumpShadowCallStack entries)) =
      some (entries.map entryOf) := by
  show (((ShadowCallStack.dumpShadowCallStack entries).splitOn '\n').mapM parseLine).map
    List.reduceOption = some (entries.map entryOf)
  unfold ShadowCallStack.dumpShadowCallStack
  induction entries with
  | nil => rfl
  | cons callEntry entries ih =>
    obtain ⟨hfirst, hrest⟩ := List.forall_mem_cons.1 h
    obtain ⟨lines, hlines, hentries⟩ := Option.map_eq_some_iff.1 (ih hrest)
    rw [List.flatMap_cons, List.append_assoc, List.singleton_append,
      List.splitOn_append_cons_self, List.splitOn_eq_singleton (notMem_entryLine hfirst.1 hfirst.2),
      List.singleton_append, List.mapM_cons, parseLine_entryLine hfirst.1 hfirst.2, hlines,
      List.map_cons, ← hentries]
    rfl

/-- Whatever the file holds, the names that are read are words. -/
theorem isName_of_mem_parseCallEntries {text : List Char} {found : List CallStackEntry}
    (h : parseCallEntries (some text) = some found) {entry : CallStackEntry} (hentry : entry ∈ found) :
    IsName entry.caller ∧ IsName entry.callee := by
  obtain ⟨lines, hlines, rfl⟩ := Option.map_eq_some_iff.1 h
  obtain ⟨line, -, hline⟩ := exists_of_mem_mapM hlines (List.reduceOption_mem_iff.1 hentry)
  have hwords : ∀ w ∈ fields isSeparator line, IsWord isSeparator w := fun _ => isWord_of_mem_fields
  have hname : ∀ w ∈ fields isSeparator line, IsName (String.ofList w) := fun w hw => by
    unfold IsName
    rw [String.toList_ofList]
    exact hwords w hw
  unfold parseLine at hline
  split at hline
  · cases hline
  · cases hline
  · next hfields =>
    obtain ⟨n, -, hn⟩ := Option.map_eq_some_iff.1 hline
    obtain rfl := Option.some.inj hn
    rw [hfields] at hname
    exact ⟨hname _ List.mem_cons_self, hname _ (List.mem_cons_of_mem _ List.mem_cons_self)⟩
  · next hfields =>
    obtain ⟨n, -, hn⟩ := Option.map_eq_some_iff.1 hline
    obtain rfl := Option.some.inj hn
    rw [hfields] at hname
    have hexternal : IsName "external" := by decide
    exact ⟨hexternal, hname _ List.mem_cons_self⟩

/-! ## Top theorem -/

/-- **What is read is what was written**, for every number of calls. -/
theorem parseCallEntries_dump_iff (entries : List (Vazgen.CallStackEntry × Int32)) :
    parseCallEntries (some (ShadowCallStack.dumpShadowCallStack entries)) =
        some (entries.map entryOf) ↔
      ∀ callEntry ∈ entries, IsName callEntry.1.caller ∧ IsName callEntry.1.callee :=
  ⟨fun h _ hentry => isName_of_mem_parseCallEntries h (List.mem_map_of_mem hentry),
    parseCallEntries_dump⟩

/-- A callee without a name is read as a call of its caller. -/
example : parseCallEntries (some (ShadowCallStack.dumpShadowCallStack [(⟨"f", ""⟩, 2)])) =
    some [{ caller := "external", callee := "f", callNum := 2 }] := rfl

end ContextSwitchesEvalData

end Vazgen
