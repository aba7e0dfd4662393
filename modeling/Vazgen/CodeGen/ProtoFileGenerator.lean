import Vazgen.Analysis.Partition
import Vazgen.Lib.Cycles
import Vazgen.Lib.Worklist

/-!
# The proto file of a partition

`generate` makes a message for every return and parameter type of the partition's functions, and
for the structs in the fields of these messages.  A type that has a message is not visited again,
but its message is entered only when its fields have been made.  So the recursion ends exactly when
no struct type that the functions use refers back to itself (`generate_ends_iff`).
-/

namespace Vazgen

variable {F G S : Type}

/-! ## Types and messages -/

/-- `llvm::Type` with the types that pointers point to; `S` are the struct types, `other` any
further type that is not composite.  Vectors are left out. -/
inductive TypeTree (S : Type) where
  | void
  | integer (bitWidth : Nat)
  | float
  | double
  | pointer (elementType : TypeTree S)
  | array (numElements : Nat) (elementType : TypeTree S)
  | struct (type : S)
  | other (id : Nat)
deriving DecidableEq

/-- `llvm::StructType` -/
structure StructType (S : Type) where
  getName : String
  elements : List (TypeTree S)

/-- The types of a module. -/
structure ModuleTypes (F S : Type) where
  structs : S → StructType S
  getReturnType : F → TypeTree S
  getParamTypes : F → List (TypeTree S)

namespace ProtoMessage

/-- `ProtoMessage::Field`; of the values of `m_number`, an `int`, the negative ones are left out. -/
structure Field where
  attr : String := ""
  type : String
  name : String
  number : Nat
deriving DecidableEq

end ProtoMessage

/-- `ProtoMessage`; no enums are added to it. -/
structure ProtoMessage where
  name : String
  fields : List ProtoMessage.Field
deriving DecidableEq

/-- `ProtoFile`; no imports and services are added to it. -/
structure ProtoFile where
  version : String := ""
  package : String := ""
  messages : List ProtoMessage := []

namespace ProtoFileGenerator

/-! ## Algorithm -/

/-- A text, and whether the assertion on the way to it holds.  A failed assertion is recorded, and
the code goes on behind it. -/
structure Checked where
  text : String
  holds : Bool := true

/-- `assert(false); return "";` -/
def Checked.failed : Checked := { text := "", holds := false }

/-- The members that change. -/
structure State (S : Type) where
  typeMessages : TypeTree S → Option ProtoMessage := fun _ => none
  protoFile : ProtoFile := {}
  assertionsHold : Bool := true

def State.check (s : State S) (c : Checked) : State S :=
  { s with assertionsHold := s.assertionsHold && c.holds }

def getMessageNameForScalar : TypeTree S → Checked
  | .integer bitWidth =>
    if bitWidth = 1 then { text := "Bool" }
    else if bitWidth = 32 then { text := "Integer32" }
    else if bitWidth = 64 then { text := "Integer64" }
    else { text := "Integer" }
  | .float => { text := "Float" }
  | .double => { text := "Double" }
  | _ => .failed

def getScalarType : TypeTree S → Checked
  | .integer bitWidth =>
    if bitWidth = 1 then { text := "bool" }
    else if bitWidth = 32 then { text := "int32" }
    else if bitWidth = 64 then { text := "int64" }
    else { text := "int" }
  | .float => { text := "float" }
  | .double => { text := "double" }
  | _ => .failed

section Model

variable [DecidableEq S] (structs : S → StructType S)

/-- Insert into `m_typeMessages`, which keeps an entry that is there, and add to the file. -/
def State.addMessage (s : State S) (type : TypeTree S) (msg : ProtoMessage) : State S :=
  { s with
    typeMessages :=
      if (s.typeMessages type).isSome then s.typeMessages
      else Function.update s.typeMessages type (some msg)
    protoFile := { s.protoFile with messages := s.protoFile.messages ++ [msg] } }

omit [DecidableEq S] in
def getFieldName : TypeTree S → String
  | .struct t => (structs t).getName ++ "Value"
  | .array _ _ => "arrayValue"
  | _ => "value"

omit [DecidableEq S] in
def getMessageNameForType : TypeTree S → Checked
  | .struct t => { text := (structs t).getName }
  | .array _ elementType =>
    let name := getMessageNameForType elementType
    { name with text := name.text ++ "Array" }
  | type => getMessageNameForScalar type

omit [DecidableEq S] in
/-- The message of what a pointer points to is made first. -/
def generatePointee (generateType : State S → TypeTree S → Option (State S)) (s : State S) :
    TypeTree S → Option (State S)
  | .pointer elementType => generateType s elementType
  | _ => some s

omit [DecidableEq S] in
/-- The body of the loop over the elements of a struct, on an element and its index. -/
def addField (generateField : State S → TypeTree S → String → Nat →
      Option (ProtoMessage.Field × State S))
    (r : List ProtoMessage.Field × State S) (element : TypeTree S × Nat) :
    Option (List ProtoMessage.Field × State S) :=
  (generateField r.2 element.1 (getFieldName structs element.1) (element.2 + 1)).map fun field =>
    (r.1 ++ [field.1], field.2)

mutual

/-- `generateMessageForType`; `none` when the fuel is used up. -/
def generateMessageForType : Nat → State S → TypeTree S → Option (State S)
  | 0, _, _ => none
  | fuel + 1, s, type =>
    if (s.typeMessages type).isSome then some s
    else
      (generatePointee (generateMessageForType fuel) s type).bind fun s =>
      let name := getMessageNameForType structs type
      (generateMessageFields fuel (s.check name) type).map fun fields =>
        State.addMessage fields.2 type { name := name.text, fields := fields.1 }

/-- `generateMessageFields`: the fields that are added to the message. -/
def generateMessageFields : Nat → State S → TypeTree S →
    Option (List ProtoMessage.Field × State S)
  | 0, _, _ => none
  | fuel + 1, s, type =>
    match type with
    | .struct t =>
      (structs t).elements.zipIdx.foldlM (addField structs (generateMessageField fuel)) ([], s)
    | type => (generateMessageField fuel s type "value" 1).map fun field => ([field.1], field.2)

def generateMessageField : Nat → State S → TypeTree S → String → Nat →
    Option (ProtoMessage.Field × State S)
  | 0, _, _, _, _ => none
  | fuel + 1, s, type, name, fieldNum =>
    match type with
    | .pointer elementType => generateMessageField fuel s elementType name fieldNum
    | .array _ elementType =>
      (generateMessageField fuel s elementType name fieldNum).map fun field =>
        ({ field.1 with attr := "repeated" }, field.2)
    | .struct t =>
      (if (s.typeMessages (.struct t)).isSome then some s
        else generateMessageForType fuel s (.struct t)).map fun s =>
      ({ type := ((s.typeMessages (.struct t)).map (·.name)).getD "", name := name,
         number := fieldNum }, s)
    | type =>
      let scalar := getScalarType type
      some ({ type := scalar.text, name := name, number := fieldNum }, s.check scalar)

end

end Model

section Generate

variable [DecidableEq S] (types : ModuleTypes F S)

def generateMessagesForFunction (fuel : Nat) (s : State S) (f : F) : Option (State S) :=
  (generateMessageForType types.structs fuel s (types.getReturnType f)).bind fun s =>
    (types.getParamTypes f).foldlM (generateMessageForType types.structs fuel) s

def generateMessages (order : IterationOrder F) (partition : Partition F G) (fuel : Nat)
    (s : State S) : Option (State S) :=
  (order.list partition.partition).foldlM (generateMessagesForFunction types fuel) s

def generate (order : IterationOrder F) (partition : Partition F G) (protoName : String)
    (fuel : Nat) : Option (State S) :=
  generateMessages types order partition fuel
    { protoFile := { version := "proto3", package := protoName } }

end Generate

/-! ## More fuel -/

section Fuel

variable [DecidableEq S] {structs : S → StructType S}

/-- More fuel does not change what a call of one of the three functions returns. -/
theorem generate_mono (more fuel : Nat) :
    (∀ s type s', generateMessageForType structs fuel s type = some s' →
      generateMessageForType structs (fuel + more) s type = some s') ∧
    (∀ s type r, generateMessageFields structs fuel s type = some r →
      generateMessageFields structs (fuel + more) s type = some r) ∧
    ∀ s type name fieldNum r, generateMessageField structs fuel s type name fieldNum = some r →
      generateMessageField structs (fuel + more) s type name fieldNum = some r := by
  induction fuel with
  | zero =>
    refine ⟨fun s type s' h => ?_, fun s type r h => ?_, fun s type name fieldNum r h => ?_⟩
    · cases h
    · cases h
    · cases h
  | succ fuel ih =>
    obtain ⟨ihType, ihFields, ihField⟩ := ih
    rw [Nat.add_right_comm]
    refine ⟨fun s type s' h => ?_, fun s type r h => ?_, fun s type name fieldNum r h => ?_⟩
    · rw [generateMessageForType] at h ⊢
      by_cases hp : (s.typeMessages type).isSome = true
      · rw [if_pos hp] at h ⊢
        exact h
      · rw [if_neg hp] at h ⊢
        obtain ⟨s₁, hs₁, h⟩ := Option.bind_eq_some_iff.1 h
        obtain ⟨r, hr, rfl⟩ := Option.map_eq_some_iff.1 h
        refine Option.bind_eq_some_iff.2 ⟨s₁, ?_, ?_⟩
        · cases type with
          | pointer elementType => exact ihType _ _ _ hs₁
          | _ => exact hs₁
        · exact Option.map_eq_some_iff.2 ⟨r, ihFields _ _ _ hr, rfl⟩
    · have hone : ∀ type, (generateMessageField structs fuel s type "value" 1).map
          (fun field => ([field.1], field.2)) = some r →
          (generateMessageField structs (fuel + more) s type "value" 1).map
            (fun field => ([field.1], field.2)) = some r := by
        intro type h
        obtain ⟨field, hfield, rfl⟩ := Option.map_eq_some_iff.1 h
        exact Option.map_eq_some_iff.2 ⟨field, ihField _ _ _ _ _ hfield, rfl⟩
      cases type with
      | struct t =>
        refine Worklist.foldlM_of_le (fun r₁ element r₂ hstep => ?_) h
        obtain ⟨field, hfield, rfl⟩ := Option.map_eq_some_iff.1 hstep
        exact Option.map_eq_some_iff.2 ⟨field, ihField _ _ _ _ _ hfield, rfl⟩
      | _ => exact hone _ h
    · cases type with
      | pointer elementType => exact ihField _ _ _ _ _ h
      | array numElements elementType =>
        obtain ⟨field, hfield, rfl⟩ := Option.map_eq_some_iff.1 h
        exact Option.map_eq_some_iff.2 ⟨field, ihField _ _ _ _ _ hfield, rfl⟩
      | struct t =>
        obtain ⟨s₁, hs₁, rfl⟩ := Option.map_eq_some_iff.1 h
        refine Option.map_eq_some_iff.2 ⟨s₁, ?_, rfl⟩
        by_cases hp : (s.typeMessages (.struct t)).isSome = true
        · rw [if_pos hp] at hs₁ ⊢
          exact hs₁
        · rw [if_neg hp] at hs₁ ⊢
          exact ihType _ _ _ hs₁
      | _ => exact h

theorem isSome_of_le {α : Type} {x y : Option α} (h : ∀ a, x = some a → y = some a)
    (hx : x.isSome = true) : y.isSome = true := by
  obtain ⟨a, ha⟩ := Option.isSome_iff_exists.1 hx
  rw [h a ha]
  rfl

end Fuel

/-! ## Struct types that refer to each other -/

section Refers

variable {structs : S → StructType S}

/-- The struct type at the end of a chain of pointers and arrays. -/
def TypeTree.leafStruct : TypeTree S → Option S
  | .pointer elementType => leafStruct elementType
  | .array _ elementType => leafStruct elementType
  | .struct t => some t
  | _ => none

/-- An element of the first struct type is built from the second one. -/
def Refers (structs : S → StructType S) (t u : S) : Prop :=
  ∃ e ∈ (structs t).elements, TypeTree.leafStruct e = some u

/-- The types that the fields of a message are made for. -/
def fieldTypes (structs : S → StructType S) : TypeTree S → List (TypeTree S)
  | .struct t => (structs t).elements
  | type => [type]

/-- Making the message of the first type asks for a message of the second one. -/
def Needs (structs : S → StructType S) (type u : TypeTree S) : Prop :=
  type = .pointer u ∨
    ∃ e ∈ fieldTypes structs type, ∃ t, TypeTree.leafStruct e = some t ∧ u = .struct t

theorem needs_struct_iff {t : S} {u : TypeTree S} :
    Needs structs (.struct t) u ↔ ∃ t', Refers structs t t' ∧ u = .struct t' := by
  unfold Needs Refers fieldTypes
  constructor
  · rintro (hptr | ⟨e, he, t', hleaf, rfl⟩)
    · cases hptr
    · exact ⟨t', ⟨e, he, hleaf⟩, rfl⟩
  · rintro ⟨t', ⟨e, he, hleaf⟩, rfl⟩
    exact .inr ⟨e, he, t', hleaf, rfl⟩

theorem acc_needs_struct {t : S} (h : Acc (flip (Refers structs)) t) :
    Acc (flip (Needs structs)) (.struct t) := by
  induction h with
  | intro t _ ih =>
    refine ⟨_, fun u hu => ?_⟩
    obtain ⟨t', ht', rfl⟩ := needs_struct_iff.1 hu
    exact ih t' ht'

theorem acc_refers {t : S} (h : Acc (flip (Needs structs)) (.struct t)) :
    Acc (flip (Refers structs)) t := by
  generalize htype : TypeTree.struct t = type at h
  induction h generalizing t with
  | intro type _ ih =>
    subst htype
    exact ⟨t, fun t' ht' => ih _ (needs_struct_iff.2 ⟨t', ht', rfl⟩) rfl⟩

/-- The recursion that a type starts is the one that its struct type starts. -/
theorem acc_needs_of_leafStruct {type : TypeTree S}
    (h : ∀ t, TypeTree.leafStruct type = some t → Acc (flip (Needs structs)) (.struct t)) :
    Acc (flip (Needs structs)) type := by
  induction type with
  | struct t => exact h t rfl
  | pointer elementType ih =>
    refine ⟨_, fun u hu => ?_⟩
    rcases hu with hptr | ⟨e, he, t, hleaf, rfl⟩
    · cases hptr
      exact ih h
    · rw [List.mem_singleton.1 he] at hleaf
      exact h t hleaf
  | _ =>
    refine ⟨_, fun u hu => ?_⟩
    rcases hu with hptr | ⟨e, he, t, hleaf, rfl⟩
    · cases hptr
    · rw [List.mem_singleton.1 he] at hleaf
      exact h t hleaf

theorem acc_leafStruct {type : TypeTree S} (h : Acc (flip (Needs structs)) type) {t : S}
    (ht : TypeTree.leafStruct type = some t) : Acc (flip (Needs structs)) (.struct t) := by
  cases type with
  | struct t' =>
    cases ht
    exact h
  | pointer elementType => exact h.inv (.inr ⟨_, List.mem_singleton_self _, t, ht, rfl⟩)
  | array numElements elementType =>
    exact h.inv (.inr ⟨_, List.mem_singleton_self _, t, ht, rfl⟩)
  | _ => cases ht

end Refers

/-! ## Where the recursion ends -/

section Ends

variable [DecidableEq S] {structs : S → StructType S}

/-- The calls that have returned are not on a cycle. -/
def Guarded (structs : S → StructType S) (s : State S) : Prop :=
  ∀ type, (s.typeMessages type).isSome = true → Acc (flip (Needs structs)) type

theorem Guarded.addMessage {s : State S} (hs : Guarded structs s) {type : TypeTree S}
    (htype : Acc (flip (Needs structs)) type) (msg : ProtoMessage) :
    Guarded structs (s.addMessage type msg) := by
  intro u hu
  unfold State.addMessage at hu
  dsimp only at hu
  split at hu
  · exact hs u hu
  · by_cases htu : u = type
    · rw [htu]
      exact htype
    · rw [Function.update_of_ne htu] at hu
      exact hs u hu

/-- The calls with the fuel that return have not met a cycle. -/
def TypesAcc (structs : S → StructType S) (fuel : Nat) : Prop :=
  ∀ s type s', generateMessageForType structs fuel s type = some s' → Guarded structs s →
    Acc (flip (Needs structs)) type ∧ Guarded structs s'

def FieldsAcc (structs : S → StructType S) (fuel : Nat) : Prop :=
  ∀ s type r, generateMessageFields structs fuel s type = some r → Guarded structs s →
    (∀ e ∈ fieldTypes structs type, ∀ t, TypeTree.leafStruct e = some t →
      Acc (flip (Needs structs)) (.struct t)) ∧ Guarded structs r.2

def FieldAcc (structs : S → StructType S) (fuel : Nat) : Prop :=
  ∀ s type name fieldNum r, generateMessageField structs fuel s type name fieldNum = some r →
    Guarded structs s → (∀ t, TypeTree.leafStruct type = some t →
      Acc (flip (Needs structs)) (.struct t)) ∧ Guarded structs r.2

theorem acc_pointee {fuel : Nat} (hType : TypesAcc structs fuel) {s s' : State S}
    {type : TypeTree S} (hs : Guarded structs s)
    (h : generatePointee (generateMessageForType structs fuel) s type = some s') :
    (∀ u, type = .pointer u → Acc (flip (Needs structs)) u) ∧ Guarded structs s' := by
  cases type with
  | pointer elementType =>
    obtain ⟨helement, hs'⟩ := hType _ _ _ h hs
    refine ⟨fun u hu => ?_, hs'⟩
    cases hu
    exact helement
  | _ =>
    cases h
    exact ⟨fun u hu => (nomatch hu), hs⟩

theorem typesAcc_succ {fuel : Nat} (hType : TypesAcc structs fuel)
    (hFields : FieldsAcc structs fuel) : TypesAcc structs (fuel + 1) := by
  intro s type s' h hs
  rw [generateMessageForType] at h
  by_cases hp : (s.typeMessages type).isSome = true
  · rw [if_pos hp] at h
    cases h
    exact ⟨hs type hp, hs⟩
  · rw [if_neg hp] at h
    obtain ⟨s₁, hs₁, h⟩ := Option.bind_eq_some_iff.1 h
    obtain ⟨r, hr, rfl⟩ := Option.map_eq_some_iff.1 h
    obtain ⟨hpointee, hguard⟩ := acc_pointee hType hs hs₁
    obtain ⟨hfields, hguardr⟩ := hFields _ _ _ hr hguard
    have htype : Acc (flip (Needs structs)) type := by
      refine ⟨_, fun u hu => ?_⟩
      rcases hu with hptr | ⟨e, he, t, hleaf, rfl⟩
      · exact hpointee u hptr
      · exact hfields e he t hleaf
    exact ⟨htype, hguardr.addMessage htype _⟩

theorem fieldsAcc_succ {fuel : Nat} (hField : FieldAcc structs fuel) :
    FieldsAcc structs (fuel + 1) := by
  intro s type r h hs
  have hone : ∀ type, (generateMessageField structs fuel s type "value" 1).map
      (fun field => ([field.1], field.2)) = some r →
      (∀ e ∈ [type], ∀ t, TypeTree.leafStruct e = some t →
        Acc (flip (Needs structs)) (.struct t)) ∧ Guarded structs r.2 := by
    intro type h
    obtain ⟨field, hfield, rfl⟩ := Option.map_eq_some_iff.1 h
    obtain ⟨hleaf, hfield⟩ := hField _ _ _ _ _ hfield hs
    refine ⟨fun e he => ?_, hfield⟩
    rw [List.mem_singleton.1 he]
    exact hleaf
  cases type with
  | struct t =>
    obtain ⟨hall, hr⟩ := Worklist.foldlM_forall (P := fun r => Guarded structs r.2)
      (Q := fun e => ∀ t, TypeTree.leafStruct e.1 = some t →
        Acc (flip (Needs structs)) (.struct t))
      (fun r₁ element r₂ _ hr₁ hstep => by
        obtain ⟨field, hfield, rfl⟩ := Option.map_eq_some_iff.1 hstep
        exact hField _ _ _ _ _ hfield hr₁) hs h
    refine ⟨fun e he => ?_, hr⟩
    obtain ⟨i, hi⟩ := List.mem_iff_getElem?.1 he
    exact hall (e, i) (List.mk_mem_zipIdx_iff_getElem?.2 hi)
  | _ => exact hone _ h

theorem fieldAcc_succ {fuel : Nat} (hType : TypesAcc structs fuel)
    (hField : FieldAcc structs fuel) : FieldAcc structs (fuel + 1) := by
  intro s type name fieldNum r h hs
  cases type with
  | pointer elementType => exact hField s elementType name fieldNum r h hs
  | array numElements elementType =>
    obtain ⟨field, hfield, rfl⟩ := Option.map_eq_some_iff.1 h
    exact hField s elementType name fieldNum field hfield hs
  | struct t =>
    obtain ⟨s₁, hs₁, rfl⟩ := Option.map_eq_some_iff.1 h
    have hacc : Acc (flip (Needs structs)) (.struct t) ∧ Guarded structs s₁ := by
      by_cases hp : (s.typeMessages (.struct t)).isSome = true
      · rw [if_pos hp] at hs₁
        cases hs₁
        exact ⟨hs _ hp, hs⟩
      · rw [if_neg hp] at hs₁
        exact hType _ _ _ hs₁ hs
    refine ⟨fun t' ht' => ?_, hacc.2⟩
    cases ht'
    exact hacc.1
  | _ =>
    cases h
    exact ⟨fun t ht => (nomatch ht), hs⟩

theorem acc_of_generate (fuel : Nat) :
    TypesAcc structs fuel ∧ FieldsAcc structs fuel ∧ FieldAcc structs fuel := by
  induction fuel with
  | zero =>
    refine ⟨fun s type s' h => ?_, fun s type r h => ?_, fun s type name fieldNum r h => ?_⟩
    · cases h
    · cases h
    · cases h
  | succ fuel ih =>
    obtain ⟨hType, hFields, hField⟩ := ih
    exact ⟨typesAcc_succ hType hFields, fieldsAcc_succ hField, fieldAcc_succ hType hField⟩

/-- A field is made when the message of its struct type is. -/
theorem exists_field {type : TypeTree S}
    (h : ∀ t, TypeTree.leafStruct type = some t →
      ∃ fuel, ∀ s, (generateMessageForType structs fuel s (.struct t)).isSome = true) :
    ∃ fuel, ∀ s name fieldNum,
      (generateMessageField structs fuel s type name fieldNum).isSome = true := by
  induction type with
  | pointer elementType ih =>
    obtain ⟨fuel, hfuel⟩ := ih h
    exact ⟨fuel + 1, hfuel⟩
  | array numElements elementType ih =>
    obtain ⟨fuel, hfuel⟩ := ih h
    refine ⟨fuel + 1, fun s name fieldNum => ?_⟩
    rw [generateMessageField, Option.isSome_map]
    exact hfuel s name fieldNum
  | struct t =>
    obtain ⟨fuel, hfuel⟩ := h t rfl
    refine ⟨fuel + 1, fun s name fieldNum => ?_⟩
    rw [generateMessageField, Option.isSome_map]
    split
    · rfl
    · exact hfuel s
  | _ => exact ⟨1, fun s name fieldNum => rfl⟩

/-- The fields of a message are made when the messages of their struct types are. -/
theorem exists_fields {type : TypeTree S}
    (h : ∀ e ∈ fieldTypes structs type, ∀ t, TypeTree.leafStruct e = some t →
      ∃ fuel, ∀ s, (generateMessageForType structs fuel s (.struct t)).isSome = true) :
    ∃ fuel, ∀ s, (generateMessageFields structs fuel s type).isSome = true := by
  obtain ⟨fuel, hfuel⟩ := Worklist.exists_fuel (l := fieldTypes structs type)
    (P := fun fuel e => ∀ s name fieldNum,
      (generateMessageField structs fuel s e name fieldNum).isSome = true)
    (fun fuel more e he s name fieldNum =>
      isSome_of_le ((generate_mono more fuel).2.2 s e name fieldNum) (he s name fieldNum))
    fun e he => exists_field (h e he)
  refine ⟨fuel + 1, fun s => ?_⟩
  rw [generateMessageFields.eq_def]
  cases type with
  | struct t =>
    refine Worklist.isSome_foldlM (fun element helement r => ?_) _
    rw [addField, Option.isSome_map]
    exact hfuel element.1 (List.fst_mem_of_mem_zipIdx helement) _ _ _
  | _ =>
    dsimp only
    rw [Option.isSome_map]
    exact hfuel _ (List.mem_singleton_self _) _ _ _

/-- **Where no cycle is met, the recursion ends**, whatever messages have been made before. -/
theorem exists_generate {type : TypeTree S} (h : Acc (flip (Needs structs)) type) :
    ∃ fuel, ∀ s, (generateMessageForType structs fuel s type).isSome = true := by
  induction h with
  | intro type _ ih =>
    have hfields : ∃ fuel, ∀ s, (generateMessageFields structs fuel s type).isSome = true :=
      exists_fields fun e he t ht => ih (.struct t) (.inr ⟨e, he, t, ht, rfl⟩)
    obtain ⟨m, hm⟩ := hfields
    have hpointee : ∃ n, ∀ s, (generatePointee (generateMessageForType structs n) s type).isSome =
        true := by
      cases type with
      | pointer elementType => exact ih elementType (.inl rfl)
      | _ => exact ⟨0, fun s => rfl⟩
    obtain ⟨n, hn⟩ := hpointee
    refine ⟨m + n + 1, fun s => ?_⟩
    rw [generateMessageForType]
    split
    · rfl
    · have hn' : (generatePointee (generateMessageForType structs (m + n)) s type).isSome = true := by
        refine isSome_of_le (fun s' hs' => ?_) (hn s)
        rw [Nat.add_comm]
        cases type with
        | pointer elementType => exact (generate_mono m n).1 _ _ _ hs'
        | _ => exact hs'
      obtain ⟨s₁, hs₁⟩ := Option.isSome_iff_exists.1 hn'
      rw [hs₁, Option.bind_some, Option.isSome_map]
      exact isSome_of_le ((generate_mono n m).2.1 _ _) (hm _)

end Ends

/-! ## Top theorem -/

/-- The types that messages are made for on account of a function. -/
def ModuleTypes.signature (types : ModuleTypes F S) (f : F) : List (TypeTree S) :=
  types.getReturnType f :: types.getParamTypes f

/-- A return or parameter type of the partition is built from the struct type. -/
def Uses (types : ModuleTypes F S) (partition : Partition F G) (t : S) : Prop :=
  ∃ f ∈ partition.partition, ∃ type ∈ ModuleTypes.signature types f,
    TypeTree.leafStruct type = some t

/-- No struct type that the functions of the partition use refers back to itself. -/
def NonRecursive (types : ModuleTypes F S) (partition : Partition F G) : Prop :=
  ∀ t, Uses types partition t → ∀ u, Relation.ReflTransGen (Refers types.structs) t u →
    ¬ Relation.TransGen (Refers types.structs) u u

section Top

variable [DecidableEq S] {types : ModuleTypes F S} {order : IterationOrder F}
  {partition : Partition F G} {fuel : Nat}

/-- The types in the order in which `generateMessages` comes to them. -/
def startTypes (types : ModuleTypes F S) (order : IterationOrder F) (partition : Partition F G) :
    List (TypeTree S) :=
  (order.list partition.partition).flatMap (ModuleTypes.signature types)

omit [DecidableEq S] in
theorem mem_startTypes {type : TypeTree S} : type ∈ startTypes types order partition ↔
    ∃ f ∈ partition.partition, type ∈ ModuleTypes.signature types f := by
  unfold startTypes
  simp only [List.mem_flatMap, order.mem]

theorem generateMessages_eq (s : State S) : generateMessages types order partition fuel s =
    (startTypes types order partition).foldlM (generateMessageForType types.structs fuel) s := by
  unfold generateMessages startTypes
  induction order.list partition.partition generalizing s with
  | nil => rfl
  | cons f fs ih =>
    rw [List.foldlM_cons, List.flatMap_cons, List.foldlM_append]
    exact Option.bind_congr fun s' _ => ih s'

theorem acc_of_generateMessages {s s' : State S} (hs : Guarded types.structs s)
    (h : generateMessages types order partition fuel s = some s') :
    ∀ type ∈ startTypes types order partition, Acc (flip (Needs types.structs)) type := by
  rw [generateMessages_eq] at h
  exact (Worklist.foldlM_forall (fun s₁ type s₂ _ hs₁ hst =>
    (acc_of_generate fuel).1 s₁ type s₂ hst hs₁) hs h).1

theorem exists_generateMessages
    (h : ∀ type ∈ startTypes types order partition, Acc (flip (Needs types.structs)) type)
    (s : State S) : ∃ fuel s', generateMessages types order partition fuel s = some s' := by
  obtain ⟨fuel, s', hs'⟩ := Worklist.exists_foldlM
    (f := fun fuel => generateMessageForType types.structs fuel)
    (fun fuel more s type => (generate_mono more fuel).1 s type)
    (fun type htype s => by
      obtain ⟨fuel, hfuel⟩ := exists_generate (h type htype)
      exact ⟨fuel, Option.isSome_iff_exists.1 (hfuel s)⟩) s
  exact ⟨fuel, s', by rw [generateMessages_eq]; exact hs'⟩

omit [DecidableEq S] in
theorem acc_startTypes_iff [Finite S] :
    (∀ type ∈ startTypes types order partition, Acc (flip (Needs types.structs)) type) ↔
      NonRecursive types partition := by
  constructor
  · rintro h t ⟨f, hf, type, htype, hleaf⟩
    have hacc := h type (mem_startTypes.2 ⟨f, hf, htype⟩)
    exact Cycles.acc_iff_no_cycle.1 (acc_refers (acc_leafStruct hacc hleaf))
  · intro h type htype
    obtain ⟨f, hf, htype⟩ := mem_startTypes.1 htype
    refine acc_needs_of_leafStruct fun t hleaf => acc_needs_struct ?_
    exact Cycles.acc_iff_no_cycle.2 (h t ⟨f, hf, type, htype, hleaf⟩)

theorem nonRecursive_of_generate [Finite S] {protoName : String} {s : State S}
    (h : generate types order partition protoName fuel = some s) :
    NonRecursive types partition :=
  acc_startTypes_iff.1 (acc_of_generateMessages (fun type htype => by cases htype) h)

theorem exists_generate_of_nonRecursive [Finite S] (order : IterationOrder F) (protoName : String)
    (h : NonRecursive types partition) :
    ∃ fuel s, generate types order partition protoName fuel = some s :=
  exists_generateMessages (acc_startTypes_iff.2 h) _

/-- **Termination of the generation.**  It ends exactly when no struct type that the functions of
the partition use refers back to itself. -/
theorem generate_ends_iff [Finite S] (types : ModuleTypes F S) (order : IterationOrder F)
    (partition : Partition F G) (protoName : String) :
    (∃ fuel s, generate types order partition protoName fuel = some s) ↔
      NonRecursive types partition :=
  ⟨fun ⟨_, _, h⟩ => nonRecursive_of_generate h, exists_generate_of_nonRecursive order protoName⟩

end Top

/-! ## A linked list -/

/-- The function `int sum(struct node* head)`; the nodes hold an `int` and, in a list, a pointer to
the next one. -/
def sumTypes (linked : Bool) : ModuleTypes Unit Unit where
  structs _ :=
    { getName := "struct.node"
      elements := if linked then [.integer 32, .pointer (.struct ())] else [.integer 32] }
  getReturnType _ := .integer 32
  getParamTypes _ := [.pointer (.struct ())]

def sumPartition : Partition Unit Empty where
  partition := {()}

/-- The message of a node of the list waits for the message of a node. -/
theorem linkedList_not_ends :
    ¬ ∃ fuel s, generate (sumTypes true) .unit sumPartition "sum" fuel = some s := by
  rintro ⟨fuel, s, h⟩
  have hself : Refers (sumTypes true).structs () () :=
    ⟨.pointer (.struct ()), List.mem_cons_of_mem _ (List.mem_singleton_self _), rfl⟩
  have huses : Uses (sumTypes true) sumPartition () :=
    ⟨(), Finset.mem_singleton_self (), _, List.mem_cons_of_mem _ (List.mem_singleton_self _), rfl⟩
  exact nonRecursive_of_generate h () huses () .refl (.single hself)

theorem singleNode_ends :
    ∃ fuel s, generate (sumTypes false) .unit sumPartition "sum" fuel = some s := by
  refine (generate_ends_iff (sumTypes false) .unit sumPartition "sum").2 ?_
  intro t _ u _ hcycle
  have hno : ∀ a b, ¬ Refers (sumTypes false).structs a b := by
    rintro a b ⟨e, he, hleaf⟩
    rw [List.mem_singleton.1 he] at hleaf
    cases hleaf
  obtain ⟨b, hb, -⟩ := Relation.TransGen.head'_iff.1 hcycle
  exact hno u b hb

end ProtoFileGenerator

end Vazgen
