import Vazgen.Analysis.Partition

/-!
# The table of optimisation factors

`ILPOptimizationData` counts the calls between the functions of a module, and `dumpILPModule` writes
them as a linear program.  The functions are numbered in module order; a variable `v` with this number
stands for a function, and a variable `f` with two numbers for the calls of one function by another.
-/

namespace Vazgen

namespace OptimizationFactorsTable

variable {F G V N : Type} [DecidableEq F]

/-! ## Counting calls -/

/-- The size is not initialised before the row is filled.  `callees` are the keys of
`m_contextSwitchNum`, which has -1 for calls in a loop. -/
structure ILPOptimizationDataRow (F : Type) where
  getFunction : F
  getFSize : Option Nat := none
  callees : Finset F := ∅
  contextSwitchNum : F → Int := fun _ => 0

/-- A call in `fillRow`. -/
def ILPOptimizationDataRow.addCall (isInLoop : Bool) (row : ILPOptimizationDataRow F) (callee : F) :
    ILPOptimizationDataRow F :=
  let num := row.contextSwitchNum callee
  { row with
    callees := insert callee row.callees
    contextSwitchNum := Function.update row.contextSwitchNum callee
      (if num = -1 then num else if isInLoop then -1 else num + 1) }

/-- The functions that the control edges of a call's node lead to. -/
def calledFunctions (pdg : PDG F G V N) (node : N) : List F :=
  ((pdg.outEdges node).filter (·.isControlEdge)).filterMap fun edge =>
    pdg.functionOf edge.getDestination

/-- `fillRow`: the calls and invokes of the function, each with whether it is in a loop. -/
def fillRow (M : Module F G V) (pdg : PDG F G V N) (calls : List (V × Bool))
    (row : ILPOptimizationDataRow F) : Option (ILPOptimizationDataRow F) :=
  if pdg.hasFunctionPDG row.getFunction then
    calls.foldlM (fun row call => do
        let node ← pdg.getNode row.getFunction call.1
        return (calledFunctions pdg node).foldl (·.addCall call.2) row)
      { row with getFSize := some (M.functionSize row.getFunction) }
  else some row

/-- `collectOptimizationData` -/
def collectOptimizationData (M : Module F G V) (pdg : PDG F G V N) (calls : F → List (V × Bool)) :
    Option (List (ILPOptimizationDataRow F)) :=
  M.functions.mapM fun f =>
    if M.isDeclaration f then some { getFunction := f }
    else fillRow M pdg (calls f) { getFunction := f }

/-! ## The linear program -/

/-- A call edge as it is written. -/
structure DumpedEdge where
  num : Int
  edgeVarName : String
  varName : String
  calleeVarName : String

def dumpEdge (M : Module F G V) (row : ILPOptimizationDataRow F) (callee : F) :
    Option DumpedEdge := do
  let currentIdx ← M.functions.idxOf? row.getFunction
  let calleeIdx ← M.functions.idxOf? callee
  return {
    num := row.contextSwitchNum callee
    edgeVarName := "f" ++ toString currentIdx ++ toString calleeIdx
    varName := "v" ++ toString currentIdx
    calleeVarName := "v" ++ toString calleeIdx }

/-- The inner loop of `dumpILPModule`, over the keys in an arbitrary order. -/
def dumpEdges (order : IterationOrder F) (M : Module F G V) (row : ILPOptimizationDataRow F) :
    Option (List DumpedEdge) :=
  (order.list row.callees).mapM (dumpEdge M row)

/-- `std::to_string(coef)` -/
def coef : String := "1.000000"

def DumpedEdge.objectiveStr (edge : DumpedEdge) : String :=
  (if edge.num = -1 then "100 " else toString edge.num ++ " ") ++ coef ++ " " ++ edge.edgeVarName ++
    " + "

def DumpedEdge.constraintsStr (edge : DumpedEdge) : String :=
  edge.edgeVarName ++ " - " ++ edge.varName ++ " + " ++ edge.calleeVarName ++ " <= 1\n" ++
    edge.edgeVarName ++ " + " ++ edge.varName ++ " - " ++ edge.calleeVarName ++ " <= 1\n"

/-- The text of a row: its part of the objective, of the constraints and of the bounds. -/
def dumpRow (order : IterationOrder F) (M : Module F G V) (secure : Partition F G)
    (row : ILPOptimizationDataRow F) : Option (String × String × String) := do
  let currentIdx ← M.functions.idxOf? row.getFunction
  let edges ← dumpEdges order M row
  let varName := "v" ++ toString currentIdx
  let objective := String.join (edges.map DumpedEdge.objectiveStr)
  let constraints := String.join (edges.map DumpedEdge.constraintsStr)
  if M.isDeclaration row.getFunction || M.getName row.getFunction = "main" then
    return (objective, varName ++ "<= 0\n" ++ constraints, "")
  else if row.getFunction ∈ secure.partition then
    return (objective, constraints, "1 <= " ++ varName ++ " <= 1\n")
  else return (objective, constraints, "0 <= " ++ varName ++ " <= 1\n")

/-- The cost of a function; its size is read whether it was set or not. -/
def sizeCost (M : Module F G V) (row : ILPOptimizationDataRow F) : Option String :=
  if M.isDeclaration row.getFunction then some ""
  else do
    let size ← row.getFSize
    let currentIdx ← M.functions.idxOf? row.getFunction
    return " - 100 " ++ toString size ++ " v" ++ toString currentIdx

/-- `dumpILPModule`; the last plus sign is cut off. -/
def dumpILPModule (order : IterationOrder F) (M : Module F G V) (secure : Partition F G)
    (rows : List (ILPOptimizationDataRow F)) : Option String := do
  let parts ← rows.mapM (dumpRow order M secure)
  let sizes ← rows.mapM (sizeCost M)
  let obj := "Maximize\n" ++ String.join (parts.map (·.1))
  return (obj.dropEnd 2).toString ++ String.join sizes ++ "\n" ++
    "Subject To\n" ++ String.join (parts.map (·.2.1)) ++
    "Bounds\n" ++ String.join (parts.map (·.2.2)) ++ "end\n"

/-- The call edges of the whole program. -/
def dumpedEdges (order : IterationOrder F) (M : Module F G V)
    (rows : List (ILPOptimizationDataRow F)) : Option (List DumpedEdge) :=
  (rows.mapM (dumpEdges order M)).map List.flatten

end OptimizationFactorsTable

end Vazgen
