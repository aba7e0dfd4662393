import Vazgen.CodeGen.Statements

/-!
# Source files

`SourceFileWriter` writes the functions of a scope, then its global variables, then the scopes nested
in it.  A reader meets declarations and uses in this order and keeps track of the namespaces around
it; what it finds is what is in the tree of scopes (`itemEvents_writeSourceScope`).
-/

namespace Vazgen

open Scoping

inductive SourceScope where
  | mk (name : String) (functions : List GeneratedFunction)
      (globalVariables : List (Variable × String)) (subScopes : List SourceScope)

def SourceScope.getName : SourceScope → String
  | mk name _ _ _ => name

/-! ## The writer -/

/-- What the writer writes at a time. -/
inductive SourceItem where
  | function (F : GeneratedFunction)
  | global (variableValue : Variable × String)
  | beginNamespace (name : String)
  | endNamespace (name : String)

namespace SourceFileWriter

def writeFunctions (functions : List GeneratedFunction) : List SourceItem :=
  functions.map .function

def writeGlobals (globals : List (Variable × String)) : List SourceItem :=
  globals.map .global

mutual

def writeSourceScope : SourceScope → List SourceItem
  | .mk _ functions globalVariables subScopes =>
    writeFunctions functions ++ writeGlobals globalVariables ++ writeSubScopes subScopes

/-- The loop of `writeSourceScope` over the nested scopes. -/
def writeSubScopes : List SourceScope → List SourceItem
  | [] => []
  | subScope :: subScopes =>
    .beginNamespace subScope.getName ::
      (writeSourceScope subScope ++ .endNamespace subScope.getName :: writeSubScopes subScopes)

end

end SourceFileWriter

/-! ## The reader -/

/-- A function or variable at namespace scope.  An unnamed namespace does not count in `path`, as what
it holds is visible around it. -/
structure Declaration where
  path : List String
  name : String
deriving DecidableEq

/-- A name in the body of a function at `path`, or `asylo::primitives::name`. -/
structure Reference where
  path : List String
  isQualified : Bool
  name : String

/-- Without qualification a name stands for one in the same or in an enclosing namespace. -/
def Reference.ResolvesTo (r : Reference) (d : Declaration) : Prop :=
  d.name = r.name ∧ if r.isQualified then d.path = ["asylo", "primitives"] else d.path <+: r.path

instance (r : Reference) (d : Declaration) : Decidable (r.ResolvesTo d) :=
  inferInstanceAs (Decidable (_ ∧ _))

theorem resolvesTo_qualified (path : List String) (name : String) :
    Reference.ResolvesTo { path := path, isQualified := true, name := name }
      { path := ["asylo", "primitives"], name := name } :=
  ⟨rfl, rfl⟩

theorem resolvesTo_enclosing {path path' : List String} (h : path' <+: path) (name : String) :
    Reference.ResolvesTo { path := path, isQualified := false, name := name }
      { path := path', name := name } :=
  ⟨rfl, h⟩

/-- The functions and variables outside the body that a statement refers to, and whether by their
qualified names.  The names of selectors and of what the libraries declare come with the includes. -/
def Statement.references : Statement → List (Bool × String)
  | call _ isQualified callee _ => [(isQualified, callee.getName)]
  | enclaveCall _ | loadEnclave => [(false, "client")]
  | registerEntryHandler _ handler => [(false, handler)]
  | registerExitHandler _ handler => [(false, "client"), (false, handler)]
  | _ => []

/-- A parameter hides what has its name outside. -/
def GeneratedFunction.references (F : GeneratedFunction) : List (Bool × String) :=
  (F.statements.flatMap Statement.references).filter fun r =>
    r.1 || !(F.function.getParams.map (·.name)).contains r.2

theorem GeneratedFunction.references_eq {F : GeneratedFunction} (h : F.function.getParams = []) :
    F.references = F.statements.flatMap Statement.references := by
  unfold references
  simp [h]

/-- What the body refers to from `path` is in `scope`. -/
def GeneratedFunction.ResolvesIn (F : GeneratedFunction) (path : List String)
    (scope : List Declaration) : Prop :=
  ∀ x ∈ F.references, ∃ d ∈ scope,
    Reference.ResolvesTo { path := path, isQualified := x.1, name := x.2 } d

abbrev SourceEvent : Type := Event Declaration Reference

def GeneratedFunction.sourceEvents (path : List String) (F : GeneratedFunction) :
    List SourceEvent :=
  .declare { path := path, name := F.function.getName } ::
    (F.references.map fun r => { path := path, isQualified := r.1, name := r.2 }).map .use

def globalEvent (path : List String) (variableValue : Variable × String) : SourceEvent :=
  .declare { path := path, name := variableValue.1.name }

/-- The path without the unnamed namespaces. -/
def namedPath (path : List String) : List String := path.filter (· ≠ "")

/-- What a text declares and uses, where it stands in the namespaces `path`. -/
def itemEvents : List String → List SourceItem → List SourceEvent
  | _, [] => []
  | path, .function F :: items => F.sourceEvents (namedPath path) ++ itemEvents path items
  | path, .global variableValue :: items =>
    globalEvent (namedPath path) variableValue :: itemEvents path items
  | path, .beginNamespace name :: items => itemEvents (path ++ [name]) items
  | path, .endNamespace _ :: items => itemEvents path.dropLast items

/-- Everything that a body in the file refers to has been emitted before it. -/
def DeclaresBeforeUse (file : SourceScope) : Prop :=
  DeclaredBeforeUse Reference.ResolvesTo []
    (itemEvents [] (SourceFileWriter.writeSourceScope file))

/-- Everything that a body in the file refers to is emitted, be it before or after it. -/
def EmitsReferences (file : SourceScope) : Prop :=
  ∀ r ∈ used (itemEvents [] (SourceFileWriter.writeSourceScope file)),
    ∃ d ∈ declared (itemEvents [] (SourceFileWriter.writeSourceScope file)), r.ResolvesTo d

/-! ## The scopes of a file -/

namespace SourceFileWriter

mutual

/-- What a scope declares and uses, in the order in which it is written. -/
def scopeEvents : List String → SourceScope → List SourceEvent
  | path, .mk _ functions globalVariables subScopes =>
    functions.flatMap (·.sourceEvents (namedPath path)) ++
      globalVariables.map (globalEvent (namedPath path)) ++ subScopeEvents path subScopes

def subScopeEvents : List String → List SourceScope → List SourceEvent
  | _, [] => []
  | path, subScope :: subScopes =>
    scopeEvents (path ++ [subScope.getName]) subScope ++ subScopeEvents path subScopes

end

theorem itemEvents_writeFunctions (path : List String) (functions : List GeneratedFunction)
    (items : List SourceItem) : itemEvents path (writeFunctions functions ++ items) =
      functions.flatMap (·.sourceEvents (namedPath path)) ++ itemEvents path items := by
  induction functions with
  | nil => rfl
  | cons F functions ih =>
    rw [List.flatMap_cons, List.append_assoc, ← ih]
    rfl

theorem itemEvents_writeGlobals (path : List String) (globals : List (Variable × String))
    (items : List SourceItem) : itemEvents path (writeGlobals globals ++ items) =
      globals.map (globalEvent (namedPath path)) ++ itemEvents path items := by
  induction globals with
  | nil => rfl
  | cons g globals ih =>
    rw [List.map_cons, List.cons_append, ← ih]
    rfl

mutual

/-- A scope is read back as it was written, and the reader is then where it was before. -/
theorem itemEvents_writeSourceScope (path : List String) (items : List SourceItem) :
    ∀ scope, itemEvents path (writeSourceScope scope ++ items) =
      scopeEvents path scope ++ itemEvents path items
  | .mk name functions globalVariables subScopes => by
    rw [writeSourceScope, scopeEvents, List.append_assoc, List.append_assoc,
      itemEvents_writeFunctions, itemEvents_writeGlobals,
      itemEvents_writeSubScopes path items subScopes]
    simp only [List.append_assoc]

theorem itemEvents_writeSubScopes (path : List String) (items : List SourceItem) :
    ∀ subScopes, itemEvents path (writeSubScopes subScopes ++ items) =
      subScopeEvents path subScopes ++ itemEvents path items
  | [] => rfl
  | subScope :: subScopes => by
    rw [writeSubScopes, subScopeEvents, List.cons_append, itemEvents, List.append_assoc,
      itemEvents_writeSourceScope _ _ subScope, List.cons_append, itemEvents,
      List.dropLast_concat, itemEvents_writeSubScopes path items subScopes, List.append_assoc]

end

end SourceFileWriter

open SourceFileWriter

theorem itemEvents_file (file : SourceScope) :
    itemEvents [] (writeSourceScope file) = scopeEvents [] file := by
  have h := itemEvents_writeSourceScope [] [] file
  rwa [List.append_nil, itemEvents, List.append_nil] at h

theorem declaresBeforeUse_iff {file : SourceScope} :
    DeclaresBeforeUse file ↔
      DeclaredBeforeUse Reference.ResolvesTo [] (scopeEvents [] file) := by
  rw [DeclaresBeforeUse, itemEvents_file]

end Vazgen
