import Vazgen.Analysis.Partition
import Vazgen.Lib.Worklist

/-!
# The partitioner

`Partitioner.partition` puts the annotated functions into the secure partition and everything else
into the insecure one.  For annotated arguments and return values it walks the dependence graph and
records the functions it meets as related functions of the secure partition.

The three walks (`traverseForward`, `traverseBackward`, `PartitionForReturnValue.traverse`) are
worklist loops; `fuel` bounds their iterations, and `none` means that some loop has not ended, or
that an assertion on the graph's tables has failed.  The assertion in `addRelatedFunction` only sets
`assertFailed`: a build with assertions stops there, one without goes on as the model does.
-/

namespace Vazgen

open Worklist

variable {F G V N : Type}

/-- `Annotation` -/
structure Annotation (F : Type) where
  getAnnotation : String
  getFunction : F
  getAnnotatedArguments : List Nat := []
  isReturnAnnotated : Bool := false

abbrev Annotations (F : Type) : Type := List <| Annotation F

/-! ## Algorithm -/

/-- The members of `PartitionForAnnotation` and the local variables of its worklist loops.  Lists
of nodes are kept with their back end first: `pop_back` takes the head, `push_front` appends. -/
structure TraverseState (F G V N : Type) where
  partition : Partition F G := {}
  functionLevels : Finmap (fun _ : F => Int) := ∅
  workingList : List N := []
  processedValues : Finset V := ∅
  /-- the list that `traverseForward` fills for `traverseBackward` -/
  result : List N := []
  /-- the assertion in `addRelatedFunction` was reached and failed -/
  assertFailed : Bool := false

section Loops

variable [DecidableEq F] [DecidableEq V] (M : Module F G V) (pdg : PDG F G V N)

def updateFunctionLevel (currentF newF : Option F) (levels : Finmap fun _ : F => Int) :
    Finmap fun _ : F => Int :=
  match newF, currentF with
  | none, _ => levels
  | some _, none => levels
  | some newF, some currentF =>
    match levels.lookup currentF with
    | none => levels -- "No entry for current parent"
    | some level => MinMap.insertMin newF (if newF = currentF then level else level + 1) levels

def addRelatedFunction (f : F) (s : TraverseState F G V N) : TraverseState F G V N :=
  match s.functionLevels.lookup f with
  | none => { s with assertFailed := true } -- "No level for function"
  | some level => { s with partition := s.partition.addRelatedFunction f level }

def canProcessNode (n : N) : Bool :=
  match pdg.kind n with
  | .constant | .null => false
  | _ => true

/-- The loop over the edges of a node: queue the other end and relax its function's level. -/
def queueNeighbours (parent : Option F) (ns : List N) (s : TraverseState F G V N) :
    TraverseState F G V N :=
  ns.foldl (fun s m =>
    if canProcessNode pdg m then
      { s with
        workingList := s.workingList ++ [m]
        functionLevels := updateFunctionLevel parent (pdg.getParent m) s.functionLevels }
    else s) s

def outNeighbours (n : N) : List N := (pdg.outEdges n).map (·.getDestination)

def inNeighbours (n : N) : List N := (pdg.inEdges n).map (·.getSource)

/-- `PartitionForArguments::collectNodesForActualArg` -/
def collectNodesForActualArg (n : N) (s : TraverseState F G V N) : TraverseState F G V N :=
  if pdg.isPointerArgOperand n then
    (outNeighbours pdg n).foldl (fun s m =>
      match pdg.kind m with
      | .formalArgument f =>
        if pdg.hasFunctionPDG f then
          let s :=
            if M.isDeclaration f then s
            else
              addRelatedFunction f { s with
                functionLevels := updateFunctionLevel (pdg.getParent n) (some f) s.functionLevels }
          { s with workingList := s.workingList ++ [m] }
        else s
      | _ => s) s
  else s

/-- The node, in the annotated function's graph, of the value that a store node stores. -/
def storeOperandNode (annotated : F) (n : N) : Option N :=
  match (pdg.getNodeValue n).map M.valueClass with
  | some (.storeInst valueOp _) => pdg.getNode annotated valueOp
  | _ => none

/-- The value operand of a store joins the list of the backward traversal. -/
def collectStoreOperand (annotated : F) (n : N) (s : TraverseState F G V N) :
    TraverseState F G V N :=
  match storeOperandNode M pdg annotated n with
  | some m => { s with result := m :: s.result }
  | none => s

/-- A function node ends the traversal; a defined function other than the annotated one is
related. -/
def visitFunction (annotated f : F) (s : TraverseState F G V N) : TraverseState F G V N :=
  if M.isDeclaration f then s else if f = annotated then s else addRelatedFunction f s

def isActualArgument (n : N) : Bool :=
  match pdg.kind n with
  | .actualArgument _ => true
  | _ => false

/-- What sets the three worklist loops apart: the popped nodes they drop, the value they enter a
node under in `processed_values`, and what they do with a node that is no function node. -/
structure TraverseLoop (F G V N : Type) where
  drop : N → Bool
  key : N → Option V
  expand : N → TraverseState F G V N → TraverseState F G V N

/-- What the loop does with a node it neither drops nor has marked. -/
def visitNode (loop : TraverseLoop F G V N) (annotated : F) (n : N) (s : TraverseState F G V N) :
    TraverseState F G V N :=
  match pdg.functionOf n with
  | some f => visitFunction M annotated f s
  | none => loop.expand n s

/-- One iteration of a worklist loop. -/
def traverseStep (loop : TraverseLoop F G V N) (annotated : F) (s : TraverseState F G V N) :
    Option (TraverseState F G V N) :=
  match s.workingList with
  | [] => none
  | n :: rest =>
    let s := { s with workingList := rest }
    if loop.drop n then some s
    else
      match loop.key n with
      | none => some (visitNode M pdg loop annotated n s)
      | some v =>
        if v ∈ s.processedValues then some s
        else
          some (visitNode M pdg loop annotated n
            { s with processedValues := insert v s.processedValues })

/-- The loop of `PartitionForArguments::traverseForward`: nodes without a value are dropped, only
instruction nodes are entered in `processed_values`. -/
def forwardLoop (annotated : F) : TraverseLoop F G V N where
  drop n := !pdg.isLLVMNode n || (pdg.getNodeValue n).isNone
  key n := if pdg.isInstruction n then pdg.getNodeValue n else none
  expand n s :=
    let s := if isActualArgument pdg n then collectNodesForActualArg M pdg n s else s
    let s := collectStoreOperand M pdg annotated n s
    queueNeighbours pdg (pdg.getParent n) (outNeighbours pdg n) s

/-- The loop of `PartitionForArguments::traverseBackward`. -/
def backwardLoop : TraverseLoop F G V N where
  drop n := !pdg.isLLVMNode n || (pdg.getNodeValue n).isNone
  key n := if pdg.isInstruction n then pdg.getNodeValue n else none
  expand n s := queueNeighbours pdg (pdg.getParent n) (inNeighbours pdg n) s

/-- The loop of `PartitionForReturnValue::traverse`: every node with a value is entered in
`processed_values`, one without a value is expanded at every visit. -/
def returnLoop : TraverseLoop F G V N where
  drop n := !pdg.isLLVMNode n
  key n := pdg.getNodeValue n
  expand n s := queueNeighbours pdg (pdg.getParent n) (inNeighbours pdg n) s

/-- `PartitionForArguments::traverseForward` from a formal argument node. -/
def traverseForward (fuel : Nat) (annotated : F) (formalArgNode : N) (s : TraverseState F G V N) :
    Option (TraverseState F G V N) :=
  whileSome (traverseStep M pdg (forwardLoop M pdg annotated) annotated) fuel
    { s with
      functionLevels := match pdg.getParent formalArgNode with
        | some p => MinMap.insertNew p 0 s.functionLevels
        | none => s.functionLevels
      workingList := [formalArgNode]
      processedValues := ∅
      result := [] }

/-- `PartitionForArguments::traverseBackward` on the list filled by the forward traversal. -/
def traverseBackward (fuel : Nat) (annotated : F) (s : TraverseState F G V N) :
    Option (TraverseState F G V N) :=
  whileSome (traverseStep M pdg (backwardLoop pdg) annotated) fuel
    { s with workingList := s.result, processedValues := ∅ }

/-- `PartitionForArguments::traverseForArgument` -/
def traverseForArgument (fuel : Nat) (annotated : F) (arg : Nat) (s : TraverseState F G V N) :
    Option (TraverseState F G V N) :=
  match pdg.getFormalArgNode annotated arg with
  | none => some s
  | some formalArgNode =>
    (traverseForward M pdg fuel annotated formalArgNode s).bind
      (traverseBackward M pdg fuel annotated)

end Loops

namespace PartitionForFunction

/-- `partition()` for the annotated function itself. -/
def partition [DecidableEq F] (annot : Annotation F) : Partition F G :=
  ({} : Partition F G).addToPartition annot.getFunction

end PartitionForFunction

namespace PartitionForArguments

variable (M : Module F G V) (pdg : PDG F G V N) (annot : Annotation F)

def isPointerArg (arg : Nat) : Bool :=
  ((M.argTypes annot.getFunction)[arg]?).any LLVMType.isPointerTy

def canPartition : Bool :=
  !annot.getAnnotatedArguments.isEmpty && pdg.hasFunctionPDG annot.getFunction &&
    annot.getAnnotatedArguments.all (isPointerArg M annot)

variable [DecidableEq F] [DecidableEq V]

def traverse (fuel : Nat) : Option (TraverseState F G V N) :=
  annot.getAnnotatedArguments.foldlM
    (fun s arg =>
      if isPointerArg M annot arg then
        traverseForArgument M pdg fuel annot.getFunction arg s
      else some s)
    { partition := ({} : Partition F G).addToPartition annot.getFunction }

/-- `PartitionForAnnotation::partition` -/
def partition (fuel : Nat) : Option (Partition F G) :=
  if canPartition M pdg annot then
    (traverse M pdg annot fuel).map (·.partition)
  else some {}

end PartitionForArguments

namespace PartitionForReturnValue

variable (M : Module F G V) (pdg : PDG F G V N) (annot : Annotation F)

def canPartition : Bool :=
  annot.isReturnAnnotated && !(M.getReturnType annot.getFunction).isVoidTy &&
    pdg.hasFunctionPDG annot.getFunction

/-- `collectFunctionReturnNodes`, back end first. -/
def returnNodes (f : F) : List N :=
  ((M.returnInsts f).filterMap (pdg.getNode f)).reverse

variable [DecidableEq F] [DecidableEq V]

def traverse (fuel : Nat) : Option (TraverseState F G V N) :=
  whileSome (traverseStep M pdg (returnLoop pdg) annot.getFunction) fuel
    { partition := ({} : Partition F G).addToPartition annot.getFunction
      functionLevels := MinMap.insertNew annot.getFunction 0 ∅
      workingList := returnNodes M pdg annot.getFunction }

/-- `PartitionForAnnotation::partition` -/
def partition (fuel : Nat) : Option (Partition F G) :=
  if canPartition M pdg annot then
    (traverse M pdg annot fuel).map (·.partition)
  else some {}

end PartitionForReturnValue

/-- The neighbours of a global's node, sources first; `none` when an assertion on a node or on
its parent fails. -/
def globalUsers (pdg : PDG F G V N) (g : G) : Option (List (Option F)) :=
  match pdg.getGlobalVariableNode g with
  | none => none
  | some n => (inNeighbours pdg n ++ outNeighbours pdg n).mapM pdg.nodeParent

/-- `PartitionGlobals::partition` -/
def partitionGlobals [DecidableEq F] [DecidableEq G] (M : Module F G V) (pdg : PDG F G V N)
    (functions : Finset F) : Option (Finset G) :=
  M.globals.foldlM
    (fun globals g =>
      (globalUsers pdg g).map fun users =>
        if users.any fun user => user.any (decide <| · ∈ functions) then insert g globals
        else globals) ∅

namespace Partitioner

variable [DecidableEq F] [DecidableEq G] [DecidableEq V] (M : Module F G V) (pdg : PDG F G V N)

/-- The body of the loop over the annotations. -/
def addAnnotated (fuel : Nat) (secure : Partition F G) (annot : Annotation F) :
    Option (Partition F G) := do
  let secure := secure.addPartition (PartitionForFunction.partition annot)
  let argPartition ← PartitionForArguments.partition M pdg annot fuel
  let secure := secure.addPartition argPartition
  let retPartition ← PartitionForReturnValue.partition M pdg annot fuel
  pure (secure.addPartition retPartition)

/-- Globals and interfaces of a partition from its functions. -/
def setGlobalsAndInterfaces (P : Partition F G) : Option (Partition F G) :=
  (partitionGlobals M pdg P.partition).map fun globals =>
    ((P.setGlobals globals).setInInterface (computeInInterface pdg P.partition)).setOutInterface
      (computeOutInterface M pdg P.partition)

def computeInsecurePartition (secure : Partition F G) : Option (Partition F G) :=
  setGlobalsAndInterfaces M pdg
    (M.functions.foldl (fun P f => if f ∈ secure.partition then P else P.addToPartition f) {})

/-- `Partitioner::partition`: the secure and the insecure partition. -/
def partition (fuel : Nat) (annotations : Annotations F) :
    Option (Partition F G × Partition F G) := do
  let secure ← annotations.foldlM (addAnnotated M pdg fuel) {}
  let secure ← setGlobalsAndInterfaces M pdg secure
  let insecure ← computeInsecurePartition M pdg secure
  pure (secure, insecure)

end Partitioner

end Vazgen
