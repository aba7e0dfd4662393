import Mathlib.Data.Finset.Basic

/-!
# The program under analysis: LLVM module and program dependence graph

LLVM and the dependence graph library are outside the repository.  Their objects are type
variables: `F` functions, `G` global variables, `V` values, `N` nodes of the graph (pointers, so
equal objects are the same object).  `Module` and `PDG` hold what the tool asks about them.
-/

namespace Vazgen

/-! ## LLVM -/

/-- `llvm::Type`, as far as the tool looks into it: what a pointer points to is never read. -/
inductive LLVMType where
  | void
  | integer (bits : Nat)
  | float
  | double
  | pointer
  | struct (elements : List LLVMType)
  | array (numElements : Nat) (elementType : LLVMType)
  | vector (numElements : Nat) (elementType : LLVMType)
  | function

def LLVMType.isPointerTy : LLVMType → Bool
  | .pointer => true
  | _ => false

def LLVMType.isVoidTy : LLVMType → Bool
  | .void => true
  | _ => false

/-- The classes of `llvm::Value` the tool casts to. -/
inductive ValueClass (V : Type) where
  | callInst
  | invokeInst
  | storeInst (valueOperand pointerOperand : V)
  | other

/-- `llvm::Module`, its functions in module order. -/
structure Module (F G V : Type) where
  functions : List F
  globals : List G
  getName : F → String
  isDeclaration : F → Bool
  isIntrinsic : F → Bool
  /-- types of the formal arguments -/
  argTypes : F → List LLVMType
  getReturnType : F → LLVMType
  /-- number of instructions, summed over the basic blocks -/
  functionSize : F → Nat
  /-- the `ret` instructions, in block order -/
  returnInsts : F → List V
  valueClass : V → ValueClass V

/-- `llvm::CallSite`: the call instruction, the function and the basic block it stands in. -/
structure CallSite (F V : Type) where
  getInstruction : V
  getCaller : F
  getParent : V
deriving DecidableEq

/-- `LoopInfo::getLoopFor` of a function, `none` when there is no loop information for it. -/
abbrev LoopInfoGetter (F V : Type) : Type := F → Option (V → Bool)

/-! ## Program dependence graph -/

/-- The node classes the tool casts to, each with the function its LLVM object stands in. -/
inductive NodeKind (F : Type) where
  | instruction (parent : F)
  | formalArgument (function : F)
  | vaArg (function : F)
  | actualArgument (caller : F)
  | function (function : F)
  | basicBlock (parent : F)
  | phi (parent : F)
  | globalVariable
  | constant
  | null
  | other
deriving DecidableEq

/-- `pdg::PDGEdge`. -/
structure PDGEdge (N : Type) where
  getSource : N
  getDestination : N
  isControlEdge : Bool

/-- `pdg::PDG`: an arbitrary graph of typed nodes.  `getParent` is the parent the graph stores with
a node, which need not agree with the function its LLVM object stands in. -/
structure PDG (F G V N : Type) where
  kind : N → NodeKind F
  /-- the node is a `PDGLLVMNode` -/
  isLLVMNode : N → Bool
  getNodeValue : N → Option V
  getParent : N → Option F
  /-- for an actual argument node: the passed operand has pointer type -/
  isPointerArgOperand : N → Bool
  outEdges : N → List (PDGEdge N)
  inEdges : N → List (PDGEdge N)
  hasFunctionPDG : F → Bool
  getCallSites : F → List (CallSite F V)
  /-- values and nodes of a function's graph -/
  llvmNodes : F → List (V × N)
  /-- `hasNode` and `getNode` of a function's graph -/
  getNode : F → V → Option N
  /-- `hasFormalArgNode` and `getFormalArgNode`, by argument index -/
  getFormalArgNode : F → Nat → Option N
  /-- `hasGlobalVariableNode` and `getGlobalVariableNode` -/
  getGlobalVariableNode : G → Option N

namespace PDG

variable {F G V N : Type} (pdg : PDG F G V N)

/-- `Utils::getNodeParent`; the outer `none` is its failed assertion. -/
def nodeParent (n : N) : Option (Option F) :=
  match pdg.kind n with
  | .formalArgument _ => none
  | .instruction f | .vaArg f | .actualArgument f | .basicBlock f | .function f | .phi f =>
    some (if pdg.isLLVMNode n then some f else none)
  | .globalVariable | .constant | .null | .other => some none

def isInstruction (n : N) : Bool :=
  match pdg.kind n with
  | .instruction _ => true
  | _ => false

/-- `getFunction` of a function node. -/
def functionOf (n : N) : Option F :=
  match pdg.kind n with
  | .function f => some f
  | _ => none

end PDG

end Vazgen
