import Vazgen.Lib.ScanInt
import Mathlib.Algebra.Ring.Int.Defs
import Mathlib.Data.List.Basic
import Mathlib.Logic.Function.Basic

/-!
# Recorded input

For the evaluation the input of a program is recorded by one library that is loaded in front of
`getchar` and played back by another one.  The recorder keeps a file for every thread name, but only
the first call of a run empties its file; the player opens one file, that of the name of the thread
which calls first.

**`replay_iff`**: a recorded run is played back exactly if all threads that call `getchar` have one
name.
-/

namespace Vazgen

namespace Intercept

/-! ## Model -/

/-- The working directory. -/
structure Directory where
  content : String → Option (List Char)
  canOpen : String → Bool

def Directory.write (dir : Directory) (fileName : String) (text : List Char) : Directory :=
  { dir with content := Function.update dir.content fileName (some text) }

def fileName (threadName : String) : String := "intercept_" ++ threadName

/-- A call of `getchar` and what the C library returns for it.  Of the calling thread only the name is
known, which it has from the thread that made it if it was given no other. -/
structure Call where
  threadName : String
  result : Int
  isInt : -2 ^ 31 ≤ result ∧ result < 2 ^ 31

/-- libintercept.c; `f` is not NULL after the first call, though closed. -/
structure Recorder where
  opened : Bool := false
  dir : Directory

/-- One number of a file. -/
def item (result : Int) : List Char := ScanInt.print result ++ [',']

/-- `getchar` of libintercept.c; `none` is `exit(1)`. -/
def Recorder.getchar (s : Recorder) (call : Call) : Option Recorder :=
  let name := fileName call.threadName
  if s.dir.canOpen name then
    -- "w" empties the file, "a" does not
    let old := if s.opened then (s.dir.content name).getD [] else []
    some { opened := true, dir := s.dir.write name (old ++ item call.result) }
  else none

/-- A run of the recorded program; the calls come one after the other. -/
def record (dir : Directory) (calls : List Call) : Option Directory :=
  (calls.foldlM Recorder.getchar { dir := dir }).map (·.dir)

/-- libminm.c; `f` is what is still to be read of the file. -/
structure Player where
  triedToAccessFile : Bool := false
  f : Option (List Char) := none

/-- The first `if` of `getchar`; `none` is `exit(1)`. -/
def Player.openFile (s : Player) (dir : Directory) (threadName : String) : Option Player :=
  if s.f = none ∧ s.triedToAccessFile = false then
    match dir.content (fileName threadName) with
    | none => some { s with triedToAccessFile := true }
    | some text =>
      if dir.canOpen (fileName threadName) then some { triedToAccessFile := true, f := some text }
      else none
  else some s

/-- `getchar` of libminm.c, and the player after it.  `none` is `exit(1)`, or a result that is not
defined: that of a call behind the end of the file, or behind what is not an `int`. -/
def Player.getchar (dir : Directory) (s : Player) (threadName : String) (typed : Int) :
    Option (Int × Player) :=
  (s.openFile dir threadName).bind fun s =>
    match s.f with
    | none => some (typed, s)
    | some text =>
      match ScanInt.scan text with
      | .eof | .mismatch => none
      -- "%c" reads the comma
      | .value n rest =>
        if -2 ^ 31 ≤ n ∧ n < 2 ^ 31 then some (n, { s with f := some rest.tail }) else none

/-- What the calls of a run return; they are given by the names of their threads and what is typed
meanwhile. -/
def replay (dir : Directory) : Player → List (String × Int) → Option (List Int)
  | _, [] => some []
  | s, (threadName, typed) :: calls =>
    (s.getchar dir threadName typed).bind fun (n, s) => (replay dir s calls).map (n :: ·)

/-! ## What is recorded -/

/-- The numbers of a file. -/
def items (results : List Int) : List Char := results.flatMap item

/-- The results of the calls under a thread name. -/
def resultsOf (calls : List Call) (name : String) : List Int :=
  (calls.filter (·.threadName = name)).map (·.result)

theorem fileName_inj {s t : String} : fileName s = fileName t ↔ s = t :=
  String.append_right_inj _

theorem items_concat (results : List Int) (n : Int) :
    items (results ++ [n]) = items results ++ item n := by
  unfold items
  rw [List.flatMap_append, List.flatMap_cons, List.flatMap_nil, List.append_nil]

theorem resultsOf_concat (calls : List Call) (call : Call) (name : String) :
    resultsOf (calls ++ [call]) name =
      resultsOf calls name ++ if call.threadName = name then [call.result] else [] := by
  unfold resultsOf
  by_cases h : call.threadName = name <;> simp [h]

/-- The state of the recorder after `calls`: the file of the thread name that came first holds the
results of its calls. -/
structure Recorded (dir : Directory) (first : String) (calls : List Call) (s : Recorder) : Prop where
  opened : s.opened = true
  canOpen : s.dir.canOpen = dir.canOpen
  openable : dir.canOpen (fileName first) = true
  content : s.dir.content (fileName first) = some (items (resultsOf calls first))

theorem Recorded.step {dir : Directory} {first : String} {calls : List Call} {s s' : Recorder}
    {call : Call} (h : Recorded dir first calls s) (hcall : s.getchar call = some s') :
    Recorded dir first (calls ++ [call]) s' := by
  unfold Recorder.getchar at hcall
  dsimp only at hcall
  split at hcall
  · cases hcall
    refine ⟨rfl, h.canOpen, h.openable, ?_⟩
    rw [resultsOf_concat]
    unfold Directory.write
    dsimp only
    by_cases hthread : call.threadName = first
    · subst hthread
      rw [Function.update_self, h.opened, if_pos rfl, h.content, if_pos rfl, items_concat]
      rfl
    · rw [if_neg hthread, List.append_nil]
      rw [Function.update_of_ne fun heq => hthread (fileName_inj.1 heq).symm]
      exact h.content
  · cases hcall

theorem recorded_of_record {dir dir' : Directory} {first : Call} {calls : List Call}
    (h : record dir (first :: calls) = some dir') :
    dir'.canOpen (fileName first.threadName) = true ∧
      dir'.content (fileName first.threadName) =
        some (items (resultsOf (first :: calls) first.threadName)) := by
  have hrun : ∀ (calls before : List Call) (s t : Recorder),
      Recorded dir first.threadName before s → calls.foldlM Recorder.getchar s = some t →
      Recorded dir first.threadName (before ++ calls) t := by
    intro calls
    induction calls with
    | nil =>
      intro before s t hs ht
      cases ht
      rwa [List.append_nil]
    | cons call calls ih =>
      intro before s t hs ht
      obtain ⟨s', hs', ht⟩ := Option.bind_eq_some_iff.1 ht
      have hall := ih _ _ _ (hs.step hs') ht
      rwa [List.append_assoc] at hall
  obtain ⟨t, ht, rfl⟩ := Option.map_eq_some_iff.1 h
  obtain ⟨s, hs, ht⟩ := Option.bind_eq_some_iff.1 ht
  have hfirst : Recorded dir first.threadName [first] s := by
    unfold Recorder.getchar at hs
    dsimp only at hs
    split at hs
    · next hopen =>
      cases hs
      refine ⟨rfl, rfl, hopen, ?_⟩
      unfold Directory.write
      dsimp only
      rw [Function.update_self]
      simp [resultsOf, items]
    · cases hs
  have hall := hrun calls [first] s t hfirst ht
  refine ⟨?_, hall.content⟩
  rw [hall.canOpen]
  exact hall.openable

/-! ## What is played back -/

/-- Once the file is open, the calls under all thread names read on in it. -/
theorem replay_items (dir : Directory) {results : List Int}
    (hint : ∀ n ∈ results, -2 ^ 31 ≤ n ∧ n < 2 ^ 31) (again : List (String × Int)) :
    replay dir { triedToAccessFile := true, f := some (items results) } again =
      if again.length ≤ results.length then some (results.take again.length) else none := by
  induction again generalizing results with
  | nil => simp [replay]
  | cons call again ih =>
    obtain ⟨threadName, typed⟩ := call
    unfold replay Player.getchar Player.openFile
    rw [if_neg (by simp), Option.bind_some]
    dsimp only
    cases results with
    | nil => rfl
    | cons n results =>
      obtain ⟨hn, hint⟩ := List.forall_mem_cons.1 hint
      have hscan : ScanInt.scan (items (n :: results)) = .value n (',' :: items results) := by
        unfold items item
        rw [List.flatMap_cons, List.append_assoc]
        refine ScanInt.scan_print n fun c hc => ?_
        cases hc
        rfl
      rw [hscan]
      dsimp only
      rw [if_pos hn, Option.bind_some, List.tail_cons, ih hint]
      simp only [List.length_cons, Nat.add_le_add_iff_right, List.take_succ_cons]
      split <;> rfl

/-- Whatever threads call after the first call: they get the results under its thread name, as long as
there are any. -/
theorem replay_record {dir dir' : Directory} {first : Call} {calls : List Call}
    (h : record dir (first :: calls) = some dir') (typed : Int) (again : List (String × Int)) :
    replay dir' {} ((first.threadName, typed) :: again) =
      if again.length + 1 ≤ (resultsOf (first :: calls) first.threadName).length then
        some ((resultsOf (first :: calls) first.threadName).take (again.length + 1))
      else none := by
  obtain ⟨hopen, hcontent⟩ := recorded_of_record h
  have hint : ∀ n ∈ resultsOf (first :: calls) first.threadName, -2 ^ 31 ≤ n ∧ n < 2 ^ 31 := by
    intro n hn
    obtain ⟨call, -, rfl⟩ := List.mem_map.1 hn
    exact call.isInt
  have hstart : ({} : Player).openFile dir' first.threadName =
      ({ triedToAccessFile := true
         f := some (items (resultsOf (first :: calls) first.threadName)) } : Player).openFile dir'
        first.threadName := by
    unfold Player.openFile
    rw [if_pos ⟨rfl, rfl⟩, hcontent, if_neg (by simp)]
    exact if_pos hopen
  have hreplay := replay_items dir' hint ((first.threadName, typed) :: again)
  rw [List.length_cons] at hreplay
  rw [← hreplay]
  unfold replay Player.getchar
  rw [hstart]

/-- All calls are made under one thread name. -/
def OneThreadName (calls : List Call) : Prop :=
  ∀ call ∈ calls, ∀ call' ∈ calls, call.threadName = call'.threadName

instance : DecidablePred OneThreadName := fun _ => inferInstanceAs (Decidable (∀ _ ∈ _, ∀ _ ∈ _, _))

/-- The first thread name has as many results as there are calls exactly if all calls are its own. -/
theorem length_resultsOf_iff {first : Call} {calls : List Call} :
    calls.length + 1 ≤ (resultsOf (first :: calls) first.threadName).length ↔
      OneThreadName (first :: calls) := by
  have hall : calls.length + 1 ≤ (resultsOf (first :: calls) first.threadName).length ↔
      ∀ call ∈ first :: calls, call.threadName = first.threadName := by
    unfold resultsOf
    rw [List.length_map, ← List.length_cons (a := first)]
    constructor
    · intro hle call hcall
      have hlength := Nat.le_antisymm (List.length_filter_le _ _) hle
      exact of_decide_eq_true (List.length_filter_eq_length_iff.1 hlength call hcall)
    · intro h
      exact Nat.le_of_eq (congrArg List.length (List.filter_eq_self.2 fun call hcall =>
        decide_eq_true (h call hcall))).symm
  rw [hall]
  constructor
  · intro h call hcall call' hcall'
    rw [h call hcall, h call' hcall']
  · intro h call hcall
    exact h call hcall first List.mem_cons_self

/-! ## Top theorem -/

/-- **When a recorded run is played back.**  If threads of the same names call in the same order again,
they get the recorded results if there is one thread name only; else the player comes to the end of its
file. -/
theorem replay_iff {dir dir' : Directory} {calls : List Call} (h : record dir calls = some dir')
    {again : List (String × Int)} (hsame : again.map (·.1) = calls.map (·.threadName)) :
    replay dir' {} again = if OneThreadName calls then some (calls.map (·.result)) else none := by
  cases calls with
  | nil =>
    obtain rfl := List.map_eq_nil_iff.1 hsame
    rw [if_pos (by simp [OneThreadName])]
    rfl
  | cons first calls =>
    cases again with
    | nil => cases hsame
    | cons call again =>
      obtain ⟨threadName, typed⟩ := call
      obtain ⟨rfl, hrest⟩ := List.cons.inj hsame
      have hlength : again.length = calls.length := by
        simpa using congrArg List.length hrest
      rw [replay_record h, hlength]
      by_cases hone : OneThreadName (first :: calls)
      · rw [if_pos (length_resultsOf_iff.2 hone), if_pos hone]
        have hresults : resultsOf (first :: calls) first.threadName =
            (first :: calls).map (·.result) := by
          unfold resultsOf
          rw [List.filter_eq_self.2 fun call hcall =>
            decide_eq_true (hone call hcall first List.mem_cons_self)]
        rw [hresults, ← List.length_cons (a := first), ← List.length_map (f := Call.result),
          List.take_length]
      · rw [if_neg (mt length_resultsOf_iff.1 hone), if_neg hone]

/-- A directory with a file of an earlier run. -/
def oldDirectory : Directory where
  content := fun name => if name = "intercept_b" then some (item 7) else none
  canOpen := fun _ => true

def callA : Call := { threadName := "a", result := 10, isInt := by decide }

def callB : Call := { threadName := "b", result := -1, isInt := by decide }

/-- Another thread of the name "a". -/
def callA' : Call := { threadName := "a", result := 11, isInt := by decide }

theorem callA_callB_replay :
    (∃ dir, record oldDirectory [callA, callA'] = some dir ∧
      replay dir {} [("a", 0), ("a", 0)] = some [10, 11]) ∧
    ∃ dir, record oldDirectory [callA, callB] = some dir ∧
      replay dir {} [("a", 0), ("b", 0)] = none := by
  have hsame : ∃ dir, record oldDirectory [callA, callA'] = some dir := ⟨_, rfl⟩
  have hother : ∃ dir, record oldDirectory [callA, callB] = some dir := ⟨_, rfl⟩
  obtain ⟨same, hsame⟩ := hsame
  obtain ⟨other, hother⟩ := hother
  exact ⟨⟨same, hsame, (replay_iff hsame rfl).trans (if_pos (by decide))⟩,
    ⟨other, hother, (replay_iff hother rfl).trans (if_neg (by decide))⟩⟩

end Intercept

end Vazgen
