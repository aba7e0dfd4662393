import Vazgen.Utils.JsonAnnotationParser

/-!
# Writing annotations to a JSON document

The evaluation annotates randomly picked functions: all their pointer arguments, and what they return.
The document that `dumpAnnotationFile` writes has keys only where there is something to write.

**`parse_dumpAnnotationFile`**: the parser reads back one annotation for each function.
-/

namespace Vazgen

variable {F G V J Text R : Type}

namespace AnnotationCreator

/-! ## Model -/

section Model

variable (lib : JsonLibrary J Text R) (M : Module F G V)

/-- `f_element["arguments"].push_back(argNo)` for an argument of pointer type. -/
def dumpArgument (fElement : J) (arg : LLVMType × Nat) : Option J :=
  if arg.1.isPointerTy then do
    let arguments ← lib.getKey fElement "arguments"
    lib.setKey fElement "arguments" (← lib.pushBack arguments (lib.ofUnsigned arg.2))
  else some fElement

/-- The element of one function. -/
def dumpFunction (f : F) : Option J := do
  let fElement ← lib.setKey lib.null "function" (lib.ofString (M.getName f))
  let fElement ← (M.argTypes f).zipIdx.foldlM (dumpArgument lib) fElement
  if (M.getReturnType f).isVoidTy then some fElement
  else lib.setKey fElement "return" (lib.ofString "True")

/-- `dumpAnnotationFile`, the text that is written. -/
def dumpAnnotationFile (functions : List F) : Option Text := do
  let annot ← lib.setKey lib.null "annotation" (lib.ofString "sensitive")
  let functionsElement ← lib.getKey annot "functions"
  let functionsElement ← functions.foldlM (fun functionsElement f => do
    lib.pushBack functionsElement (← dumpFunction lib M f)) functionsElement
  let annot ← lib.setKey annot "functions" functionsElement
  let annotations ← lib.pushBack lib.null annot
  some (lib.dump annotations)

end Model

/-- The indexes of the arguments of pointer type, in their order. -/
def pointerArguments (M : Module F G V) (f : F) : List Nat :=
  ((M.argTypes f).zipIdx.filter fun arg => arg.1.isPointerTy).map (·.2)

/-- The annotation of a picked function. -/
def annotationOf (M : Module F G V) (f : F) : Annotation F where
  getAnnotation := "sensitive"
  getFunction := f
  getAnnotatedArguments := pointerArguments M f
  isReturnAnnotated := !(M.getReturnType f).isVoidTy

/-! ## One function -/

section Element

variable (lib : JsonLibrary J Text R)

/-- The element has an array of these arguments, or no key for them if there are none. -/
def HoldsArguments (fElement : J) (args : List Nat) : Prop :=
  args = [] ∧ lib.find fElement "arguments" = none ∨
    ∃ arguments, lib.find fElement "arguments" = some arguments ∧ lib.isArray arguments = true ∧
      lib.elements arguments = args.map lib.ofUnsigned

variable {lib} {fElement : J} {args : List Nat}

/-- What comes before the next push: `null`, or the array of the arguments so far. -/
theorem exists_getKey_arguments (hcontainer : lib.IsContainer fElement)
    (h : HoldsArguments lib fElement args) :
    ∃ arguments, lib.getKey fElement "arguments" = some arguments ∧
      (arguments = lib.null ∨ lib.isArray arguments = true) ∧
      lib.elements arguments = args.map lib.ofUnsigned := by
  rw [JsonLibrary.getKey_of_isContainer hcontainer]
  rcases h with ⟨rfl, hnone⟩ | ⟨arguments, hfind, harray, helements⟩
  · rw [hnone]
    exact ⟨lib.null, rfl, .inl rfl, lib.elements_null⟩
  · rw [hfind]
    exact ⟨arguments, rfl, .inr harray, helements⟩

theorem exists_dumpArgument (hcontainer : lib.IsContainer fElement)
    (h : HoldsArguments lib fElement args) {arg : LLVMType × Nat} (harg : arg.1.isPointerTy = true) :
    ∃ fElement', dumpArgument lib fElement arg = some fElement' ∧ lib.IsContainer fElement' ∧
      HoldsArguments lib fElement' (args ++ [arg.2]) ∧
      ∀ key, key ≠ "arguments" → lib.find fElement' key = lib.find fElement key := by
  obtain ⟨arguments, hget, hnull, helements⟩ := exists_getKey_arguments hcontainer h
  obtain ⟨arguments', hpush, harray, helements'⟩ :=
    lib.pushBack_spec arguments (lib.ofUnsigned arg.2) hnull
  obtain ⟨fElement', hset, hcontainer', hfind⟩ :=
    JsonLibrary.exists_setKey hcontainer "arguments" arguments'
  refine ⟨fElement', ?_, hcontainer', .inr ⟨arguments', ?_, harray, ?_⟩, fun key hkey => ?_⟩
  · unfold dumpArgument
    rw [if_pos harg]
    simp only [hget, hpush, hset, Option.bind_eq_bind, Option.bind_some]
  · rw [hfind, if_pos rfl]
  · rw [helements', helements, List.map_append]
    rfl
  · rw [hfind, if_neg hkey]

/-- The loop over the arguments. -/
theorem exists_dumpArguments (l : List (LLVMType × Nat)) (hcontainer : lib.IsContainer fElement)
    (h : HoldsArguments lib fElement args) :
    ∃ fElement', l.foldlM (dumpArgument lib) fElement = some fElement' ∧
      lib.IsContainer fElement' ∧
      HoldsArguments lib fElement' (args ++ (l.filter fun arg => arg.1.isPointerTy).map (·.2)) ∧
      ∀ key, key ≠ "arguments" → lib.find fElement' key = lib.find fElement key := by
  induction l generalizing fElement args with
  | nil =>
    refine ⟨fElement, rfl, hcontainer, ?_, fun key _ => rfl⟩
    rw [List.filter_nil, List.map_nil, List.append_nil]
    exact h
  | cons arg l ih =>
    by_cases harg : arg.1.isPointerTy = true
    · obtain ⟨next, hdump, hcontainer', hholds, hkeys⟩ := exists_dumpArgument hcontainer h harg
      obtain ⟨last, hloop, hcontainer'', hholds', hkeys'⟩ := ih hcontainer' hholds
      refine ⟨last, ?_, hcontainer'', ?_, fun key hkey => (hkeys' key hkey).trans (hkeys key hkey)⟩
      · rw [List.foldlM_cons, hdump]
        exact hloop
      · rw [List.filter_cons, if_pos harg, List.map_cons, List.append_cons]
        exact hholds'
    · obtain ⟨last, hloop, hcontainer', hholds, hkeys⟩ := ih hcontainer h
      refine ⟨last, ?_, hcontainer', ?_, hkeys⟩
      · rw [List.foldlM_cons, dumpArgument, if_neg harg]
        exact hloop
      · rw [List.filter_cons, if_neg harg]
        exact hholds

variable (lib) in
/-- What the element of a function says when it is read. -/
structure Describes (M : Module F G V) (f : F) (fElement : J) : Prop where
  function : lib.getKey fElement "function" = some (lib.ofString (M.getName f))
  arguments : HoldsArguments lib fElement (pointerArguments M f)
  returns : (lib.find fElement "return").isSome = !(M.getReturnType f).isVoidTy

variable (lib) in
theorem exists_dumpFunction (M : Module F G V) (f : F) :
    ∃ fElement, dumpFunction lib M f = some fElement ∧ Describes lib M f fElement := by
  obtain ⟨first, hset, hcontainer, hfind⟩ :=
    JsonLibrary.exists_setKey lib.isContainer_null "function" (lib.ofString (M.getName f))
  have hnone : ∀ key, key ≠ "function" → lib.find first key = none := by
    intro key hkey
    rw [hfind, if_neg hkey, lib.find_null]
  have hempty : HoldsArguments lib first [] := .inl ⟨rfl, hnone _ (by decide)⟩
  obtain ⟨second, hloop, hcontainer', hholds, hkeys⟩ :=
    exists_dumpArguments (M.argTypes f).zipIdx hcontainer hempty
  have hfunction : lib.find second "function" = some (lib.ofString (M.getName f)) := by
    rw [hkeys _ (by decide), hfind, if_pos rfl]
  rw [List.nil_append] at hholds
  unfold dumpFunction
  simp only [hset, hloop, Option.bind_eq_bind, Option.bind_some]
  by_cases hvoid : (M.getReturnType f).isVoidTy = true
  · rw [if_pos hvoid]
    refine ⟨second, rfl, ?_, hholds, ?_⟩
    · rw [JsonLibrary.getKey_of_isContainer hcontainer', hfunction]
      rfl
    · rw [hkeys _ (by decide), hnone _ (by decide), hvoid]
      rfl
  · rw [if_neg hvoid]
    obtain ⟨third, hset', hcontainer'', hfind'⟩ :=
      JsonLibrary.exists_setKey hcontainer' "return" (lib.ofString "True")
    refine ⟨third, hset', ?_, ?_, ?_⟩
    · rw [JsonLibrary.getKey_of_isContainer hcontainer'', hfind', if_neg (by decide), hfunction]
      rfl
    · unfold HoldsArguments
      rw [hfind', if_neg (by decide)]
      exact hholds
    · rw [hfind', if_pos rfl, Bool.eq_false_of_not_eq_true hvoid]
      rfl

/-- An argument index that was written as `unsigned` and is read as `int`. -/
theorem addAnnotatedArgument_bmod (annot : Annotation F) {arg : Nat} (harg : arg < 2 ^ 32) :
    annot.addAnnotatedArgument ((arg : Int).bmod (2 ^ 32)) =
      { annot with getAnnotatedArguments := annot.getAnnotatedArguments ++ [arg] } := by
  have hback : ((arg : Int).bmod (2 ^ 32) % 2 ^ 32).toNat = arg := by
    have hmod : (arg : Int).bmod (2 ^ 32) % 2 ^ 32 = (arg : Int) % 2 ^ 32 :=
      Int.bmod_emod
    rw [hmod]
    omega
  unfold Annotation.addAnnotatedArgument
  rw [hback]

variable (lib) in
theorem foldlM_addAnnotatedArgument (annot : Annotation F) {args : List Nat}
    (hargs : ∀ arg ∈ args, arg < 2 ^ 32) :
    (args.map lib.ofUnsigned).foldlM (fun annot arg =>
        (lib.toInt? arg).map annot.addAnnotatedArgument) annot =
      some { annot with getAnnotatedArguments := annot.getAnnotatedArguments ++ args } := by
  induction args generalizing annot with
  | nil => simp
  | cons arg args ih =>
    obtain ⟨harg, hargs⟩ := List.forall_mem_cons.1 hargs
    rw [List.map_cons, List.foldlM_cons, lib.toInt?_ofUnsigned]
    simp only [Option.map_some, Option.bind_eq_bind, Option.bind_some,
      addAnnotatedArgument_bmod annot harg, ih _ hargs, List.append_assoc, List.singleton_append]

/-- The parser reads the element of a function back. -/
theorem parseFunction_of_describes {M : Module F G V} {f : F}
    (hf : M.getFunction (M.getName f) = some f) (hargs : ∀ arg ∈ pointerArguments M f, arg < 2 ^ 32)
    (h : Describes lib M f fElement) :
    JsonAnnotationParser.parseFunction lib M "sensitive" fElement =
      some (some (annotationOf M f)) := by
  have harguments : ∀ annot : Annotation F, annot.getAnnotatedArguments = [] →
      JsonAnnotationParser.parseArguments lib fElement annot =
        some { annot with getAnnotatedArguments := pointerArguments M f } := by
    intro annot hempty
    unfold JsonAnnotationParser.parseArguments
    rcases h.arguments with ⟨hnil, hnone⟩ | ⟨arguments, hfind, -, helements⟩
    · rw [hnone, hnil, ← hempty]
    · rw [hfind]
      dsimp only
      rw [helements, foldlM_addAnnotatedArgument lib annot hargs, hempty, List.nil_append]
  have hreturn : ∀ annot : Annotation F, annot.isReturnAnnotated = false →
      JsonAnnotationParser.parseReturn lib fElement annot =
        { annot with isReturnAnnotated := !(M.getReturnType f).isVoidTy } := by
    rintro ⟨str, function, args, ret⟩ rfl
    unfold JsonAnnotationParser.parseReturn
    rw [h.returns]
    cases (M.getReturnType f).isVoidTy with
    | true => rfl
    | false => rfl
  unfold JsonAnnotationParser.parseFunction
  simp only [h.function, lib.toString?_ofString, hf, Option.bind_eq_bind, Option.bind_some]
  rw [harguments _ rfl, Option.bind_some, hreturn _ rfl]
  rfl

end Element

/-- The arguments of a function have indexes below their number. -/
theorem lt_of_mem_pointerArguments {M : Module F G V} {f : F} {arg : Nat}
    (harg : arg ∈ pointerArguments M f) : arg < (M.argTypes f).length := by
  obtain ⟨⟨type, index⟩, hmem, rfl⟩ := List.mem_map.1 harg
  have hzip := List.mem_zipIdx (List.mem_filter.1 hmem).1
  omega

/-! ## The document -/

section Document

variable (lib : JsonLibrary J Text R) (M : Module F G V)

/-- The elements of all functions, one after the other. -/
theorem exists_dumpFunctions (functions : List F) {j : J}
    (hj : j = lib.null ∨ lib.isArray j = true) :
    ∃ elements j', functions.foldlM (fun functionsElement f => do
        lib.pushBack functionsElement (← dumpFunction lib M f)) j = some j' ∧
      lib.elements j' = lib.elements j ++ elements ∧
      List.Forall₂ (Describes lib M) functions elements := by
  induction functions generalizing j with
  | nil => exact ⟨[], j, rfl, (List.append_nil _).symm, .nil⟩
  | cons f functions ih =>
    obtain ⟨fElement, hdump, hdescribes⟩ := exists_dumpFunction lib M f
    obtain ⟨j₁, hpush, harray, helements⟩ := lib.pushBack_spec j fElement hj
    obtain ⟨elements, j', hloop, helements', hall⟩ := ih (.inr harray)
    refine ⟨fElement :: elements, j', ?_, ?_, .cons hdescribes hall⟩
    · rw [List.foldlM_cons, hdump]
      simp only [Option.bind_eq_bind, Option.bind_some, hpush]
      exact hloop
    · rw [helements', helements, List.append_assoc]
      rfl

/-- The document that is written, as the parser reads it. -/
theorem exists_dumpAnnotationFile (functions : List F) :
    ∃ text annotations annotItem functionsElement elements,
      dumpAnnotationFile lib M functions = some text ∧ lib.parse text = some annotations ∧
      lib.elements annotations = [annotItem] ∧
      lib.getKey annotItem "annotation" = some (lib.ofString "sensitive") ∧
      lib.getKey annotItem "functions" = some functionsElement ∧
      lib.elements functionsElement = elements ∧
      List.Forall₂ (Describes lib M) functions elements := by
  obtain ⟨annot, hset, hcontainer, hfind⟩ :=
    JsonLibrary.exists_setKey lib.isContainer_null "annotation" (lib.ofString "sensitive")
  have hnull : lib.getKey annot "functions" = some lib.null := by
    rw [JsonLibrary.getKey_of_isContainer hcontainer, hfind, if_neg (by decide), lib.find_null]
    rfl
  obtain ⟨elements, functionsElement, hloop, helements, hall⟩ :=
    exists_dumpFunctions lib M functions (.inl rfl)
  obtain ⟨annot', hset', hcontainer', hfind'⟩ :=
    JsonLibrary.exists_setKey hcontainer "functions" functionsElement
  obtain ⟨annotations, hpush, -, helements'⟩ := lib.pushBack_spec lib.null annot' (.inl rfl)
  rw [lib.elements_null, List.nil_append] at helements helements'
  refine ⟨lib.dump annotations, annotations, annot', functionsElement, elements, ?_,
    lib.parse_dump annotations, helements', ?_, ?_, helements, hall⟩
  · simp only [Option.bind_eq_bind] at hloop
    unfold dumpAnnotationFile
    simp only [hset, hnull, hloop, hset', hpush, Option.bind_eq_bind, Option.bind_some]
  · rw [JsonLibrary.getKey_of_isContainer hcontainer', hfind', if_neg (by decide), hfind, if_pos rfl]
    rfl
  · rw [JsonLibrary.getKey_of_isContainer hcontainer', hfind', if_pos rfl]
    rfl

variable {lib M}

/-- The parser finds the functions of the document in their order. -/
theorem mapM_parseFunction {functions : List F} {elements : List J}
    (hfunctions : ∀ f ∈ functions, M.getFunction (M.getName f) = some f)
    (hargs : ∀ f ∈ functions, ∀ arg ∈ pointerArguments M f, arg < 2 ^ 32)
    (h : List.Forall₂ (Describes lib M) functions elements) :
    elements.mapM (JsonAnnotationParser.parseFunction lib M "sensitive") =
      some ((functions.map (annotationOf M)).map some) := by
  induction h with
  | nil => rfl
  | cons hdescribes _ ih =>
    obtain ⟨hf, hfunctions⟩ := List.forall_mem_cons.1 hfunctions
    obtain ⟨harg, hargs⟩ := List.forall_mem_cons.1 hargs
    rw [List.mapM_cons, parseFunction_of_describes hf harg hdescribes, ih hfunctions hargs]
    rfl

variable (lib) in
/-- What the parser finds in the written document. -/
theorem exists_occurrences {functions : List F}
    (hgetFunction : ∀ f ∈ functions, M.getFunction (M.getName f) = some f)
    (hargs : ∀ f ∈ functions, (M.argTypes f).length ≤ 2 ^ 32) :
    ∃ text document, dumpAnnotationFile lib M functions = some text ∧
      lib.parse text = some document ∧ JsonAnnotationParser.occurrences lib M document =
        some (functions.map (annotationOf M)) := by
  obtain ⟨text, document, annotItem, functionsElement, elements, hdump, hparse, hitems, hstr, hget,
    helements, hall⟩ := exists_dumpAnnotationFile lib M functions
  have hfound := mapM_parseFunction hgetFunction
    (fun f hf arg harg => (lt_of_mem_pointerArguments harg).trans_le (hargs f hf)) hall
  have hitem : JsonAnnotationParser.itemOccurrences lib M annotItem =
      some (functions.map (annotationOf M)) := by
    unfold JsonAnnotationParser.itemOccurrences
    simp only [hstr, hget, helements, hfound, lib.toString?_ofString, Option.bind_eq_bind,
      Option.bind_some]
    rw [List.reduceOption, List.filterMap_map]
    exact congrArg some List.filterMap_some
  refine ⟨text, document, hdump, hparse, ?_⟩
  unfold JsonAnnotationParser.occurrences
  rw [hitems, List.mapM_cons, hitem, List.mapM_nil]
  exact congrArg some (List.append_nil _)

end Document

/-! ## Top theorem -/

/-- **Written annotations read back.**  `getFunction` finds functions by their names, and a function
has no more arguments than an `unsigned` can count. -/
theorem parse_dumpAnnotationFile [DecidableEq F] (lib : JsonLibrary J Text R) (M : Module F G V)
    {functions : List F} (hnodup : functions.Nodup)
    (hdefined : ∀ f ∈ functions, f ∈ M.functions ∧ M.isDeclaration f = false)
    (hgetFunction : ∀ f ∈ M.functions, M.getFunction (M.getName f) = some f)
    (hargs : ∀ f ∈ M.functions, (M.argTypes f).length ≤ 2 ^ 32) :
    ∃ text sets, dumpAnnotationFile lib M functions = some text ∧
      JsonAnnotationParser.parseAnnotations lib M (some text) = some sets ∧
      ∀ annotations, JsonAnnotationParser.AllAnnotations sets annotations →
        annotations.Perm (functions.map (annotationOf M)) := by
  obtain ⟨text, document, hdump, hparse, hoccs⟩ := exists_occurrences lib
    (fun f hf => hgetFunction f (hdefined f hf).1) fun f hf => hargs f (hdefined f hf).1
  refine ⟨text, (functions.map (annotationOf M)).foldl JsonAnnotationParser.insert [], hdump, ?_,
    fun annotations h => ?_⟩
  · rw [JsonAnnotationParser.parseAnnotations_eq lib M hparse, hoccs]
    rfl
  · refine JsonAnnotationParser.perm_of_nodup_key ?_ h
    rw [List.map_map]
    exact hnodup.map fun f g hfg => congrArg Prod.snd hfg

inductive LoginFunction where
  | check
  | next
  | wipe
deriving DecidableEq

/-- `int check(char* user, int tries, char* password)`, `int next(int tries)` and
`void wipe(char* password)`. -/
def loginModule : Module LoginFunction Empty Unit where
  functions := [.check, .next, .wipe]
  globals := []
  getName
    | .check => "check"
    | .next => "next"
    | .wipe => "wipe"
  isDeclaration _ := false
  isIntrinsic _ := false
  argTypes
    | .check => [.pointer, .integer 32, .pointer]
    | .next => [.integer 32]
    | .wipe => [.pointer]
  getReturnType
    | .wipe => .void
    | _ => .integer 32
  functionSize _ := 1
  returnInsts _ := []
  valueClass _ := .other

def sensitive (f : LoginFunction) (args : List Nat) (ret : Bool) : Annotation LoginFunction where
  getAnnotation := "sensitive"
  getFunction := f
  getAnnotatedArguments := args
  isReturnAnnotated := ret

/-- `next` has no pointer argument and `wipe` returns nothing. -/
theorem login_read_back :
    ∃ text sets, dumpAnnotationFile (Json.library id) loginModule [.wipe, .check, .next] =
        some text ∧
      JsonAnnotationParser.parseAnnotations (Json.library id) loginModule (some text) = some sets ∧
      ∀ annotations, JsonAnnotationParser.AllAnnotations sets annotations →
        annotations.Perm [sensitive .wipe [0] false, sensitive .check [0, 2] true,
          sensitive .next [] true] :=
  parse_dumpAnnotationFile (Json.library id) loginModule (by decide)
    (by decide) (by decide) (by decide)

end AnnotationCreator

end Vazgen
