import Vazgen.Analysis.Partitioner
import Vazgen.Lib.Json
import Vazgen.Lib.NumberedMap
import Mathlib.Data.List.ReduceOption

/-!
# Reading annotations from a JSON document

A document lists annotations, each with the functions that it is put on.  The parser keeps them in sets
of `Annotation`s, which are equal if they have the same string and function: of several occurrences of
a function under one string only the first is kept.

**`parseAnnotations_marks_iff`**: no mark is lost exactly if the first occurrence of every function
under every string marks what the later ones mark.
-/

namespace Vazgen

variable {F G V J Text R : Type}

/-! ## Model -/

/-- `Module::getFunction` -/
def Module.getFunction (M : Module F G V) (name : String) : Option F :=
  M.functions.find? fun f => M.getName f = name

namespace Annotation

/-- The argument is an `int`, the vector one of `unsigned`s. -/
def addAnnotatedArgument (annot : Annotation F) (arg : Int) : Annotation F :=
  { annot with getAnnotatedArguments := annot.getAnnotatedArguments ++ [(arg % 2 ^ 32).toNat] }

def setReturnAnnotation (annot : Annotation F) (value : Bool) : Annotation F :=
  { annot with isReturnAnnotated := value }

/-- What `operator ==` compares. -/
def key (annot : Annotation F) : String × F := (annot.getAnnotation, annot.getFunction)

end Annotation

namespace JsonAnnotationParser

/-- `m_annotations`, the sets under all strings together. -/
abbrev AnnotationSets (F : Type) : Type := List ((String × F) × Annotation F)

/-- `insert`, which leaves an equal annotation in the set. -/
def insert [DecidableEq F] (sets : AnnotationSets F) (annot : Annotation F) : AnnotationSets F :=
  NumberedMap.insertFirst sets annot.key annot

/-- A function that the module does not have is skipped. -/
def insertFound [DecidableEq F] (sets : AnnotationSets F) (found : Option <| Annotation F) :
    AnnotationSets F :=
  match found with
  | none => sets
  | some annot => insert sets annot

/-- What `getAllAnnotations` may return; the order is that of hash maps. -/
def AllAnnotations (sets : AnnotationSets F) (annotations : Annotations F) : Prop :=
  annotations.Perm (sets.map (·.2))

section Model

variable (lib : JsonLibrary J Text R) (M : Module F G V)

def parseArguments (annotF : J) (annot : Annotation F) : Option <| Annotation F :=
  match lib.find annotF "arguments" with
  | none => some annot
  | some args => (lib.elements args).foldlM (fun annot arg =>
      (lib.toInt? arg).map annot.addAnnotatedArgument) annot

/-- The key says it, whatever its value. -/
def parseReturn (annotF : J) (annot : Annotation F) : Annotation F :=
  if (lib.find annotF "return").isSome then annot.setReturnAnnotation true else annot

/-- One function of an annotation.  The outer `none` is an exception, the inner one a function that
the module does not have. -/
def parseFunction (annotationStr : String) (annotF : J) : Option <| Option <| Annotation F := do
  let functionName ← lib.toString? (← lib.getKey annotF "function")
  match M.getFunction functionName with
  | none => some none
  | some function =>
    let annot ← parseArguments lib annotF
      { getAnnotation := annotationStr, getFunction := function }
    some (some (parseReturn lib annotF annot))

variable [DecidableEq F]

/-- One annotation of the document. -/
def parseItem (sets : AnnotationSets F) (annotItem : J) : Option (AnnotationSets F) := do
  let annotationStr ← lib.toString? (← lib.getKey annotItem "annotation")
  let annotatedFunctions ← lib.getKey annotItem "functions"
  (lib.elements annotatedFunctions).foldlM (fun sets annotF =>
    (parseFunction lib M annotationStr annotF).map (insertFound sets)) sets

/-- `parseAnnotations`, of a file that can be opened or not. -/
def parseAnnotations (file : Option Text) : Option (AnnotationSets F) :=
  match file with
  | none => some []
  | some text => do
    let annotations ← lib.parse text
    (lib.elements annotations).foldlM (parseItem lib M) []

end Model

/-! ## The occurrences of a document -/

section Occurrences

variable (lib : JsonLibrary J Text R) (M : Module F G V)

/-- The functions of one annotation, as they occur. -/
def itemOccurrences (annotItem : J) : Option <| Annotations F := do
  let annotationStr ← lib.toString? (← lib.getKey annotItem "annotation")
  let annotatedFunctions ← lib.getKey annotItem "functions"
  let occurrences ← (lib.elements annotatedFunctions).mapM (parseFunction lib M annotationStr)
  some occurrences.reduceOption

/-- The annotated functions in the order of the document; `none` if it is not well formed. -/
def occurrences (annotations : J) : Option <| Annotations F := do
  let items ← (lib.elements annotations).mapM (itemOccurrences lib M)
  some items.flatten

/-- A loop whose body may throw before it changes the state. -/
theorem foldlM_map {α β σ : Type} (f : α → Option β) (g : σ → β → σ) (l : List α) (s : σ) :
    l.foldlM (fun s a => (f a).map (g s)) s = (l.mapM f).map fun found => found.foldl g s := by
  induction l generalizing s with
  | nil => rfl
  | cons a l ih =>
    rw [List.foldlM_cons, List.mapM_cons]
    cases f a with
    | none => rfl
    | some b =>
      simp only [Option.map_some, Option.bind_eq_bind, Option.bind_some, ih]
      cases l.mapM f <;> rfl

variable [DecidableEq F]

theorem foldl_insertFound (found : List <| Option <| Annotation F) (sets : AnnotationSets F) :
    found.foldl insertFound sets = found.reduceOption.foldl insert sets := by
  induction found generalizing sets with
  | nil => rfl
  | cons annot found ih =>
    rw [List.foldl_cons, ih]
    cases annot with
    | none => rw [List.reduceOption_cons_of_none, insertFound]
    | some annot => rw [List.reduceOption_cons_of_some, List.foldl_cons, insertFound]

theorem parseItem_eq (sets : AnnotationSets F) (annotItem : J) :
    parseItem lib M sets annotItem =
      (itemOccurrences lib M annotItem).map fun found => found.foldl insert sets := by
  unfold parseItem itemOccurrences
  cases lib.getKey annotItem "annotation" with
  | none => rfl
  | some str =>
    cases hstr : lib.toString? str with
    | none => simp [hstr]
    | some annotationStr =>
      cases lib.getKey annotItem "functions" with
      | none => simp
      | some functions =>
        simp only [Option.bind_eq_bind, Option.bind_some, hstr, foldlM_map]
        cases (lib.elements functions).mapM (parseFunction lib M annotationStr) with
        | none => rfl
        | some found => exact congrArg some (foldl_insertFound found sets)

/-- The parser inserts the occurrences one after the other. -/
theorem parseAnnotations_eq {text : Text} {annotations : J}
    (hparse : lib.parse text = some annotations) :
    parseAnnotations lib M (some text) =
      (occurrences lib M annotations).map fun found => found.foldl insert [] := by
  have hloop : ∀ (l : List J) (sets : AnnotationSets F),
      l.foldlM (parseItem lib M) sets =
        ((l.mapM (itemOccurrences lib M)).map List.flatten).map fun found =>
          found.foldl insert sets := by
    intro l sets
    simp only [Option.map_map, Function.comp_def, List.foldl_flatten]
    exact (congrFun (congrArg₂ List.foldlM (funext₂ (parseItem_eq lib M)) rfl) _).trans
      (foldlM_map _ _ l sets)
  unfold parseAnnotations occurrences
  simp only [hparse, Option.bind_eq_bind, Option.bind_some, hloop]
  cases (lib.elements annotations).mapM (itemOccurrences lib M) <;> rfl

end Occurrences

/-! ## The annotations that are kept -/

section Kept

variable [DecidableEq F] {occs : Annotations F} {annotations : Annotations F}

/-- An annotation is kept if it is the first occurrence of its function under its string. -/
theorem mem_of_allAnnotations (h : AllAnnotations (occs.foldl insert []) annotations)
    (annot : Annotation F) : annot ∈ annotations ↔
      ∃ before after, occs = before ++ annot :: after ∧
        annot.key ∉ before.map Annotation.key := by
  have hfill := NumberedMap.foldl_insertFirst Annotation.key id occs
  rw [h.mem_iff, List.mem_map]
  unfold insert
  constructor
  · rintro ⟨e, he, rfl⟩
    obtain ⟨before, a, after, heq, hkey, rfl⟩ := NumberedMap.mem_fill_iff.1 (hfill ▸ he)
    exact ⟨before, after, heq, hkey⟩
  · rintro ⟨before, after, heq, hkey⟩
    refine ⟨(annot.key, annot), ?_, rfl⟩
    exact hfill.symm ▸ NumberedMap.mem_fill_iff.2 ⟨before, annot, after, heq, hkey, rfl⟩

theorem nodup_key_of_allAnnotations (h : AllAnnotations (occs.foldl insert []) annotations) :
    (annotations.map Annotation.key).Nodup := by
  have hfill := NumberedMap.foldl_insertFirst Annotation.key id occs
  have hkeys : ∀ e ∈ NumberedMap.fill Annotation.key (fun annot _ => id annot) occs,
      Annotation.key e.2 = e.1 := by
    intro e he
    obtain ⟨before, a, after, -, -, rfl⟩ := NumberedMap.mem_fill_iff.1 he
    rfl
  refine (h.map Annotation.key).nodup_iff.2 ?_
  unfold insert
  rw [List.map_map]
  exact hfill ▸ List.map_congr_left hkeys ▸ NumberedMap.nodup_keys_fill occs

/-- Occurrences of distinct functions are all kept. -/
theorem perm_of_nodup_key (hnodup : (occs.map Annotation.key).Nodup)
    (h : AllAnnotations (occs.foldl insert []) annotations) : annotations.Perm occs := by
  refine (List.perm_ext_iff_of_nodup (nodup_key_of_allAnnotations h).of_map hnodup.of_map).2
    fun annot => ?_
  rw [mem_of_allAnnotations h]
  constructor
  · rintro ⟨before, after, rfl, -⟩
    exact List.mem_append_right _ List.mem_cons_self
  · intro hmem
    obtain ⟨before, after, rfl⟩ := List.append_of_mem hmem
    refine ⟨before, after, rfl, fun hkey => ?_⟩
    rw [List.map_append, List.map_cons] at hnodup
    exact List.disjoint_of_nodup_append hnodup hkey List.mem_cons_self

/-- All marks of the occurrences are among the kept annotations. -/
def MarksKept (occs annotations : Annotations F) : Prop :=
  ∀ occ ∈ occs,
    (∀ arg ∈ occ.getAnnotatedArguments, ∃ annot ∈ annotations,
      annot.key = occ.key ∧ arg ∈ annot.getAnnotatedArguments) ∧
    (occ.isReturnAnnotated = true → ∃ annot ∈ annotations,
      annot.key = occ.key ∧ annot.isReturnAnnotated = true)

/-- The first occurrence of every function under every string marks what the later ones mark. -/
def FirstMarksAll (occs : Annotations F) : Prop :=
  ∀ before first after, occs = before ++ first :: after →
    first.key ∉ before.map Annotation.key → ∀ later ∈ after, later.key = first.key →
      later.getAnnotatedArguments ⊆ first.getAnnotatedArguments ∧
      (later.isReturnAnnotated = true → first.isReturnAnnotated = true)

theorem marksKept_iff (h : AllAnnotations (occs.foldl insert []) annotations) :
    MarksKept occs annotations ↔ FirstMarksAll occs := by
  constructor
  · intro hkept before first after heq hfirst later hlater hkey
    have hmem := (mem_of_allAnnotations h first).2 ⟨before, after, heq, hfirst⟩
    have honly : ∀ annot ∈ annotations, annot.key = later.key → annot = first := fun annot ha hk =>
      List.inj_on_of_nodup_map (nodup_key_of_allAnnotations h) ha hmem (hk.trans hkey)
    obtain ⟨hargs, hret⟩ := hkept later (by simp [heq, hlater])
    constructor
    · intro arg harg
      obtain ⟨annot, ha, hk, hmark⟩ := hargs arg harg
      exact honly annot ha hk ▸ hmark
    · intro hreturn
      obtain ⟨annot, ha, hk, hmark⟩ := hret hreturn
      exact honly annot ha hk ▸ hmark
  · intro hfirst occ hocc
    have hkey : occ.key ∈ (NumberedMap.fill Annotation.key (fun annot _ => annot) occs).map (·.1) :=
      NumberedMap.mem_keys_fill.2 (List.mem_map_of_mem hocc)
    obtain ⟨e, he, hek⟩ := List.mem_map.1 hkey
    obtain ⟨before, first, after, heq, hnew, rfl⟩ := NumberedMap.mem_fill_iff.1 he
    have hkey : first.key = occ.key := hek
    have hmem := (mem_of_allAnnotations h first).2 ⟨before, after, heq, hnew⟩
    rw [heq] at hocc
    -- the occurrence is the first one of its key, or stands behind it
    rcases List.mem_append.1 hocc with hbefore | hocc
    · exact absurd (hkey ▸ List.mem_map_of_mem hbefore) hnew
    · rcases List.mem_cons.1 hocc with rfl | hafter
      · exact ⟨fun arg harg => ⟨occ, hmem, rfl, harg⟩, fun hret => ⟨occ, hmem, rfl, hret⟩⟩
      · obtain ⟨hargs, hret⟩ := hfirst before first after heq hnew occ hafter hkey.symm
        exact ⟨fun arg harg => ⟨first, hmem, hkey, hargs harg⟩,
          fun hreturn => ⟨first, hmem, hkey, hret hreturn⟩⟩

end Kept

/-! ## Top theorem -/

/-- **When no mark of a document is lost.** -/
theorem parseAnnotations_marks_iff [DecidableEq F] (lib : JsonLibrary J Text R) (M : Module F G V)
    {text : Text} {document : J} {occs : Annotations F}
    (hparse : lib.parse text = some document)
    (hoccs : occurrences lib M document = some occs) :
    ∃ sets, parseAnnotations lib M (some text) = some sets ∧
      ∀ annotations, AllAnnotations sets annotations →
        (MarksKept occs annotations ↔ FirstMarksAll occs) := by
  refine ⟨occs.foldl insert [], ?_, fun annotations => marksKept_iff⟩
  rw [parseAnnotations_eq lib M hparse, hoccs]
  rfl

/-! The function `f` under "sensitive", once with its first and once with its second argument. -/

def sensitiveArgument (arg : Int) : Json Int :=
  .object [("function", .string "f"), ("arguments", .array [.integer arg])]

def sensitiveDocument (args : List Int) : Json Int :=
  .array [.object [("annotation", .string "sensitive"),
    ("functions", .array (args.map sensitiveArgument))]]

def twoArguments : Module Unit Empty Unit where
  functions := [()]
  globals := []
  getName := fun _ => "f"
  isDeclaration := fun _ => false
  isIntrinsic := fun _ => false
  argTypes := fun _ => [.pointer, .pointer]
  getReturnType := fun _ => .void
  functionSize := fun _ => 1
  returnInsts := fun _ => []
  valueClass := fun _ => .other

def sensitiveF (arg : Nat) : Annotation Unit :=
  { getAnnotation := "sensitive", getFunction := (), getAnnotatedArguments := [arg] }

theorem twice_loses_mark :
    occurrences (Json.library id) twoArguments (sensitiveDocument [0, 1]) =
        some [sensitiveF 0, sensitiveF 1] ∧
      ∃ sets, parseAnnotations (Json.library id) twoArguments (some (sensitiveDocument [0, 1])) =
          some sets ∧
        ∀ annotations, AllAnnotations sets annotations →
          ¬ MarksKept [sensitiveF 0, sensitiveF 1] annotations := by
  refine ⟨rfl, _, rfl, fun annotations h hkept => ?_⟩
  have hperm : annotations.Perm [sensitiveF 0] := h
  have hsecond : sensitiveF 1 ∈ [sensitiveF 0, sensitiveF 1] := by simp
  obtain ⟨annot, ha, -, hmark⟩ := (hkept (sensitiveF 1) hsecond).1 1 (List.mem_singleton_self 1)
  obtain rfl := List.mem_singleton.1 (hperm.mem_iff.1 ha)
  exact absurd hmark (by decide)

theorem twice_marks_iff :
    ∃ sets, parseAnnotations (Json.library id) twoArguments (some (sensitiveDocument [0, 1])) =
        some sets ∧
      ∀ annotations, AllAnnotations sets annotations →
        (MarksKept [sensitiveF 0, sensitiveF 1] annotations ↔
          FirstMarksAll [sensitiveF 0, sensitiveF 1]) :=
  parseAnnotations_marks_iff (Json.library id) twoArguments rfl rfl

end JsonAnnotationParser

end Vazgen
