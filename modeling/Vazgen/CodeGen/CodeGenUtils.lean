import Vazgen.Analysis.PartitionStatistics

/-!
# Reading the interfaces from the statistics

The code generator takes the functions that need wrappers from the document that
`PartitionStatistics` wrote.  `parseFunctionsFromStats` collects them in `result`, but has a `return`
statement only for a file that cannot be opened.

**`parseFunctionsFromStats_report`**: the names of both in-interfaces are in `result` when the end of
the function is reached, and are not returned.
-/

namespace Vazgen

variable {F G V N R J Text : Type}

namespace CodeGenUtils

/-- How a function with local variable `result` ends. -/
inductive Outcome (α : Type) where
  | returned (value : α)
  | threw
  /-- the end of the function is reached without a `return` -/
  | flowedOff (result : α)
deriving DecidableEq

section Model

variable (lib : JsonLibrary J Text R)

/-- `stats["partition"][partitionName]["in_interface"]`, put into a set of strings. -/
def readInInterface (stats : J) (partitionName : String) : Option (Finset String) := do
  let functions ← lib.getPath stats ["partition", partitionName, "in_interface"]
  let names ← (lib.elements functions).mapM lib.toString?
  some names.toFinset

/-- `parseFunctionsFromStats`, of a file that can be opened or not. -/
def parseFunctionsFromStats (statsFile : Option Text) : Outcome (Finset String × Finset String) :=
  match statsFile with
  | none => .returned (∅, ∅)
  | some text =>
    let result := do
      let stats ← lib.parse text
      let secureFunctions ← readInInterface lib stats "secure_partition"
      let insecureFunctions ← readInInterface lib stats "insecure_partition"
      some (secureFunctions, insecureFunctions)
    match result with
    | none => .threw
    | some result => .flowedOff result

end Model

/-- The names of the functions of a set. -/
def names (M : Module F G V) (functions : Finset F) : Finset String := functions.image M.getName

theorem readInInterface_eq [DecidableEq F] (lib : JsonLibrary J Text R) (M : Module F G V)
    (order : IterationOrder F) {stats : J} {partitionName : String} {functions : Finset F}
    (h : lib.getPath stats ["partition", partitionName, "in_interface"] =
      some (lib.ofStrings ((order.list functions).map M.getName))) :
    readInInterface lib stats partitionName = some (names M functions) := by
  have hnames : ∀ strings : List String,
      (strings.map lib.ofString).mapM lib.toString? = some strings := by
    intro strings
    induction strings with
    | nil => rfl
    | cons s strings ih =>
      rw [List.map_cons, List.mapM_cons, lib.toString?_ofString, ih]
      rfl
  unfold readInInterface
  simp only [h, lib.elements_ofStrings, hnames, Option.bind_eq_bind, Option.bind_some]
  refine congrArg some (Finset.ext fun name => ?_)
  simp [names, order.mem]

/-! ## Top theorem -/

/-- **The interfaces are read, but not returned.** -/
theorem parseFunctionsFromStats_report [DecidableEq F] [Field R] [LinearOrder R]
    (lib : JsonLibrary J Text R) (M : Module F G V) (order : IterationOrder F)
    (graph : CallGraph F R) (securePartition insecurePartition : Partition F G) :
    ∃ text, PartitionStatistics.report lib M order graph securePartition insecurePartition =
        some text ∧
      parseFunctionsFromStats lib (some text) =
        .flowedOff (names M securePartition.inInterface, names M insecurePartition.inInterface) ∧
      parseFunctionsFromStats lib (some text) ≠
        .returned (names M securePartition.inInterface, names M insecurePartition.inInterface) := by
  obtain ⟨text, root, hreport, hparse, hsecure, hinsecure⟩ :=
    PartitionStatistics.exists_report lib M order graph securePartition insecurePartition
  have houtcome : parseFunctionsFromStats lib (some text) =
      .flowedOff (names M securePartition.inInterface, names M insecurePartition.inInterface) := by
    unfold parseFunctionsFromStats
    simp only [hparse, readInInterface_eq lib M order hsecure,
      readInInterface_eq lib M order hinsecure, Option.bind_eq_bind, Option.bind_some]
  refine ⟨text, hreport, houtcome, ?_⟩
  rw [houtcome]
  exact fun h => by cases h

/-- The in-interface of the secure partition holds `callee`. -/
theorem callee_not_returned :
    ∃ text, PartitionStatistics.report (Json.library (R := ℚ) fun _ => 0)
        WeightAssigningHelper.oneCallModule WeightAssigningHelper.boolOrder
        (CallGraph.create WeightAssigningHelper.oneCall) { inInterface := {true} } {} = some text ∧
      parseFunctionsFromStats (Json.library fun _ => 0) (some text) ≠ .returned ({"callee"}, ∅) := by
  refine ⟨_, rfl, fun h => ?_⟩
  have hflows : ∀ result, Outcome.flowedOff result ≠ .returned (({"callee"} : Finset String),
      (∅ : Finset String)) := fun result h => by cases h
  exact hflows _ h

end CodeGenUtils

end Vazgen
