import Vazgen.CodeGen.ProtoFileGenerator

/-!
# The messages of the proto file

For types that do not refer back to themselves, `generate` makes one message for each type that has
one, and a message depends on its type only (`generate_spec`).

The message of a type is named after the type, a field after the type that it is for, and neither
name identifies its type.  Void, pointers and integers of other widths than 1, 32 and 64 have no
name or no proto type.  `Representable` is the condition on the types under which the file is well
formed nevertheless (`wellFormed_iff`).
-/

namespace Vazgen

variable {F G S : Type}

namespace ProtoFileGenerator

/-! ## The message of a type -/

/-- The type at the end of a chain of pointers and arrays. -/
def TypeTree.leaf : TypeTree S → TypeTree S
  | .pointer elementType => leaf elementType
  | .array _ elementType => leaf elementType
  | type => type

/-- The type at the end of a chain of arrays. -/
def TypeTree.innermost : TypeTree S → TypeTree S
  | .array _ elementType => innermost elementType
  | type => type

/-- There is an array in the chain. -/
def TypeTree.isRepeated : TypeTree S → Bool
  | .pointer elementType => isRepeated elementType
  | .array _ _ => true
  | _ => false

/-- An integer, floating point or struct type. -/
def TypeTree.isValue : TypeTree S → Bool
  | .integer _ | .float | .double | .struct _ => true
  | _ => false

/-- The type of a field for a struct or scalar type. -/
def valueType (structs : S → StructType S) : TypeTree S → String
  | .struct t => (structs t).getName
  | type => (getScalarType type).text

/-- The field that is made for a type. -/
def fieldOf (structs : S → StructType S) (type : TypeTree S) (name : String) (number : Nat) :
    ProtoMessage.Field where
  attr := if TypeTree.isRepeated type then "repeated" else ""
  type := valueType structs (TypeTree.leaf type)
  name := name
  number := number

def fieldsOf (structs : S → StructType S) : TypeTree S → List ProtoMessage.Field
  | .struct t =>
    (structs t).elements.zipIdx.map fun e =>
      fieldOf structs e.1 (getFieldName structs e.1) (e.2 + 1)
  | type => [fieldOf structs type "value" 1]

/-- The message that is made for a type. -/
def messageOf (structs : S → StructType S) (type : TypeTree S) : ProtoMessage where
  name := (getMessageNameForType structs type).text
  fields := fieldsOf structs type

/-- The assertions on the way to the message hold. -/
def messageHolds (structs : S → StructType S) (type : TypeTree S) : Bool :=
  (getMessageNameForType structs type).holds &&
    (fieldTypes structs type).all fun e => TypeTree.isValue (TypeTree.leaf e)

section Names

variable {structs : S → StructType S}

theorem leaf_eq_struct_iff {type : TypeTree S} {t : S} :
    TypeTree.leaf type = .struct t ↔ TypeTree.leafStruct type = some t := by
  induction type with
  | pointer _ ih => exact ih
  | array _ _ ih => exact ih
  | struct _ => simp [TypeTree.leaf, TypeTree.leafStruct]
  | _ => simp [TypeTree.leaf, TypeTree.leafStruct]

/-- The types that a message is named for. -/
theorem holds_getMessageNameForType (type : TypeTree S) :
    (getMessageNameForType structs type).holds = TypeTree.isValue (TypeTree.innermost type) := by
  induction type with
  | array _ _ ih => exact ih
  | integer bitWidth =>
    unfold getMessageNameForType getMessageNameForScalar
    simp only [TypeTree.innermost, TypeTree.isValue]
    split_ifs <;> rfl
  | _ => rfl

theorem holds_getScalarType {type : TypeTree S} (h : ∀ t, type ≠ .struct t) :
    (getScalarType type).holds = TypeTree.isValue type := by
  cases type with
  | struct t => exact absurd rfl (h t)
  | integer bitWidth =>
    unfold getScalarType
    simp only [TypeTree.isValue]
    split_ifs <;> rfl
  | _ => rfl

theorem valueType_eq {type : TypeTree S} (h : ∀ t, type ≠ .struct t) :
    valueType structs type = (getScalarType type).text := by
  cases type with
  | struct t => exact absurd rfl (h t)
  | _ => rfl

end Names

/-! ## What one call adds -/

section Adds

variable [DecidableEq S] {structs : S → StructType S}

/-- From the first state to the second, the messages of the types `new` have been made, and the
assertions on the way to something else hold or not. -/
structure Adds (structs : S → StructType S) (s s' : State S) (new : List (TypeTree S))
    (holds : Bool) : Prop where
  messages : s'.protoFile.messages = s.protoFile.messages ++ new.map (messageOf structs)
  typeMessages : ∀ type, s'.typeMessages type =
    if type ∈ new then some (messageOf structs type) else s.typeMessages type
  fresh : ∀ type ∈ new, s.typeMessages type = none
  nodup : new.Nodup
  assertionsHold : s'.assertionsHold = (s.assertionsHold && holds && new.all (messageHolds structs))

/-- Messages belong to their types, and all that they need has been made. -/
structure Consistent (structs : S → StructType S) (s : State S) : Prop where
  known : ∀ type msg, s.typeMessages type = some msg → msg = messageOf structs type
  closed : ∀ type, (s.typeMessages type).isSome = true → ∀ u, Needs structs type u →
    (s.typeMessages u).isSome = true

theorem Adds.refl (s : State S) : Adds structs s s [] true where
  messages := (List.append_nil _).symm
  typeMessages type := rfl
  fresh type h := (List.not_mem_nil h).elim
  nodup := List.nodup_nil
  assertionsHold := by simp

theorem Adds.check (s : State S) (c : Checked) : Adds structs s (s.check c) [] c.holds where
  messages := (List.append_nil _).symm
  typeMessages type := rfl
  fresh type h := (List.not_mem_nil h).elim
  nodup := List.nodup_nil
  assertionsHold := by simp [State.check]

theorem Adds.trans {s s₁ s₂ : State S} {new₁ new₂ : List (TypeTree S)} {holds₁ holds₂ : Bool}
    (h₁ : Adds structs s s₁ new₁ holds₁) (h₂ : Adds structs s₁ s₂ new₂ holds₂) :
    Adds structs s s₂ (new₁ ++ new₂) (holds₁ && holds₂) := by
  have hfresh : ∀ type ∈ new₂, type ∉ new₁ ∧ s.typeMessages type = none := by
    intro type htype
    have hnone := h₂.fresh type htype
    rw [h₁.typeMessages] at hnone
    split at hnone
    · cases hnone
    · next hnew => exact ⟨hnew, hnone⟩
  refine ⟨?_, fun type => ?_, fun type htype => ?_, ?_, ?_⟩
  · rw [h₂.messages, h₁.messages, List.map_append, List.append_assoc]
  · rw [h₂.typeMessages, h₁.typeMessages]
    by_cases htype : type ∈ new₂
    · simp [htype]
    · simp [htype]
  · exact (List.mem_append.1 htype).elim (h₁.fresh type) fun h => (hfresh type h).2
  · refine List.nodup_append.2 ⟨h₁.nodup, h₂.nodup, ?_⟩
    rintro type htype _ htype' rfl
    exact (hfresh type htype').1 htype
  · rw [h₂.assertionsHold, h₁.assertionsHold, List.all_append]
    ac_rfl

/-- Nothing that was made is lost. -/
theorem Adds.isSome {s s' : State S} {new : List (TypeTree S)} {holds : Bool}
    (h : Adds structs s s' new holds) {type : TypeTree S}
    (htype : (s.typeMessages type).isSome = true) : (s'.typeMessages type).isSome = true := by
  rw [h.typeMessages]
  split
  · rfl
  · exact htype

theorem typeMessages_addMessage {s : State S} {type : TypeTree S} {msg : ProtoMessage}
    (hs : s.typeMessages type = none) (u : TypeTree S) :
    (s.addMessage type msg).typeMessages u = if u = type then some msg else s.typeMessages u := by
  unfold State.addMessage
  dsimp only
  rw [if_neg (by rw [hs]; decide)]
  by_cases hu : u = type
  · rw [if_pos hu, hu, Function.update_self]
  · rw [if_neg hu, Function.update_of_ne hu]

/-- The message of the type itself is the last one. -/
theorem Adds.addMessage {s s' : State S} {new : List (TypeTree S)} {type : TypeTree S}
    (h : Adds structs s s' new (messageHolds structs type)) (hs : s.typeMessages type = none)
    (hnew : type ∉ new) :
    Adds structs s (s'.addMessage type (messageOf structs type)) (new ++ [type]) true := by
  have hnone : s'.typeMessages type = none := by rw [h.typeMessages, if_neg hnew, hs]
  refine ⟨?_, fun u => ?_, fun u hu => ?_, ?_, ?_⟩
  · rw [List.map_append, ← List.append_assoc, ← h.messages]
    rfl
  · rw [typeMessages_addMessage hnone, h.typeMessages]
    by_cases hu : u = type
    · simp [hu]
    · simp [hu]
  · rcases List.mem_append.1 hu with hu | hu
    · exact h.fresh u hu
    · rw [List.mem_singleton.1 hu]
      exact hs
  · refine List.nodup_append.2 ⟨h.nodup, List.nodup_singleton type, ?_⟩
    rintro u hu _ hu' rfl
    rw [List.mem_singleton.1 hu'] at hu
    exact hnew hu
  · rw [List.all_append]
    show s'.assertionsHold = _
    rw [h.assertionsHold]
    simp only [List.all_cons, List.all_nil, Bool.and_true]
    ac_rfl

theorem Consistent.addMessage {s : State S} {type : TypeTree S} (hs : Consistent structs s)
    (hnone : s.typeMessages type = none)
    (hneeds : ∀ u, Needs structs type u → (s.typeMessages u).isSome = true) :
    Consistent structs (s.addMessage type (messageOf structs type)) := by
  have hkeep : ∀ u, (s.typeMessages u).isSome = true →
      ((s.addMessage type (messageOf structs type)).typeMessages u).isSome = true := by
    intro u hu
    rw [typeMessages_addMessage hnone]
    split
    · rfl
    · exact hu
  refine ⟨fun u msg hmsg => ?_, fun v hv u hu => hkeep u ?_⟩
  · rw [typeMessages_addMessage hnone] at hmsg
    split at hmsg
    · next hu =>
      cases hmsg
      rw [hu]
    · exact hs.known u msg hmsg
  · rw [typeMessages_addMessage hnone] at hv
    split at hv
    · next hvt => exact hneeds u (hvt ▸ hu)
    · exact hs.closed v hv u hu

omit [DecidableEq S] in
/-- A failed or passed assertion does not touch the messages. -/
theorem Consistent.check {s : State S} (hs : Consistent structs s) (c : Checked) :
    Consistent structs (s.check c) := ⟨hs.known, hs.closed⟩

/-- What a call of `generateMessageField` does. -/
def FieldSpec (structs : S → StructType S) (s : State S) (type : TypeTree S) (name : String)
    (fieldNum : Nat) (r : ProtoMessage.Field × State S) : Prop :=
  r.1 = fieldOf structs type name fieldNum ∧ Consistent structs r.2 ∧
    (∀ t, TypeTree.leafStruct type = some t → (r.2.typeMessages (.struct t)).isSome = true) ∧
    ∃ new, Adds structs s r.2 new (TypeTree.isValue (TypeTree.leaf type)) ∧
      ∀ u ∈ new, ∃ t, TypeTree.leafStruct type = some t ∧
        Relation.ReflTransGen (Needs structs) (.struct t) u

/-- What a call of `generateMessageFields` does. -/
def FieldsSpec (structs : S → StructType S) (s : State S) (type : TypeTree S)
    (r : List ProtoMessage.Field × State S) : Prop :=
  r.1 = fieldsOf structs type ∧ Consistent structs r.2 ∧
    (∀ e ∈ fieldTypes structs type, ∀ t, TypeTree.leafStruct e = some t →
      (r.2.typeMessages (.struct t)).isSome = true) ∧
    ∃ new, Adds structs s r.2 new
        ((fieldTypes structs type).all fun e => TypeTree.isValue (TypeTree.leaf e)) ∧
      ∀ u ∈ new, Relation.TransGen (Needs structs) type u

/-- What a call of `generateMessageForType` does. -/
def TypeSpec (structs : S → StructType S) (s : State S) (type : TypeTree S) (s' : State S) : Prop :=
  Consistent structs s' ∧ (s'.typeMessages type).isSome = true ∧
    ∃ new, Adds structs s s' new true ∧ ∀ u ∈ new, Relation.ReflTransGen (Needs structs) type u

/-- The calls with the fuel, on types that do not refer back to themselves. -/
def TypeCalls (structs : S → StructType S) (fuel : Nat) : Prop :=
  ∀ s type s', generateMessageForType structs fuel s type = some s' → Consistent structs s →
    Acc (flip (Needs structs)) type → TypeSpec structs s type s'

def FieldsCalls (structs : S → StructType S) (fuel : Nat) : Prop :=
  ∀ s type r, generateMessageFields structs fuel s type = some r → Consistent structs s →
    (∀ u, Needs structs type u → Acc (flip (Needs structs)) u) → FieldsSpec structs s type r

def FieldCalls (structs : S → StructType S) (fuel : Nat) : Prop :=
  ∀ s type name fieldNum r, generateMessageField structs fuel s type name fieldNum = some r →
    Consistent structs s →
    (∀ t, TypeTree.leafStruct type = some t → Acc (flip (Needs structs)) (.struct t)) →
    FieldSpec structs s type name fieldNum r

/-- The elements of a struct, one after the other. -/
theorem elements_spec {fuel : Nat} (hfield : FieldCalls structs fuel)
    {elements : List (TypeTree S × Nat)}
    (hacc : ∀ e ∈ elements, ∀ t, TypeTree.leafStruct e.1 = some t →
      Acc (flip (Needs structs)) (.struct t))
    {fields : List ProtoMessage.Field} {s : State S} {r : List ProtoMessage.Field × State S}
    (hs : Consistent structs s)
    (h : elements.foldlM (addField structs (generateMessageField structs fuel)) (fields, s) =
      some r) :
    r.1 = fields ++ elements.map (fun e =>
        fieldOf structs e.1 (getFieldName structs e.1) (e.2 + 1)) ∧ Consistent structs r.2 ∧
      (∀ e ∈ elements, ∀ t, TypeTree.leafStruct e.1 = some t →
        (r.2.typeMessages (.struct t)).isSome = true) ∧
      ∃ new, Adds structs s r.2 new
          (elements.all fun e => TypeTree.isValue (TypeTree.leaf e.1)) ∧
        ∀ u ∈ new, ∃ e ∈ elements, ∃ t, TypeTree.leafStruct e.1 = some t ∧
          Relation.ReflTransGen (Needs structs) (.struct t) u := by
  induction elements generalizing fields s with
  | nil =>
    cases h
    exact ⟨(List.append_nil _).symm, hs, fun e he => (List.not_mem_nil he).elim, [], .refl s,
      fun u hu => (List.not_mem_nil hu).elim⟩
  | cons e elements ih =>
    rw [List.foldlM_cons] at h
    obtain ⟨r₁, hr₁, h⟩ := Option.bind_eq_some_iff.1 h
    obtain ⟨field, hstep, rfl⟩ := Option.map_eq_some_iff.1 hr₁
    obtain ⟨heq, hs₁, hmade₁, new₁, hadds₁, hnew₁⟩ :=
      hfield _ _ _ _ _ hstep hs (hacc e List.mem_cons_self)
    obtain ⟨heq', hr, hmade, new, hadds, hnew⟩ :=
      ih (fun e' he' => hacc e' (List.mem_cons_of_mem e he')) hs₁ h
    refine ⟨?_, hr, ?_, new₁ ++ new, hadds₁.trans hadds, fun u hu => ?_⟩
    · rw [heq', heq, List.map_cons, List.append_assoc, List.singleton_append]
    · intro e' he' t ht
      rcases List.mem_cons.1 he' with rfl | he'
      · exact hadds.isSome (hmade₁ t ht)
      · exact hmade e' he' t ht
    · rcases List.mem_append.1 hu with hu | hu
      · obtain ⟨t, ht, hreach⟩ := hnew₁ u hu
        exact ⟨e, List.mem_cons_self, t, ht, hreach⟩
      · obtain ⟨e', he', t, ht, hreach⟩ := hnew u hu
        exact ⟨e', List.mem_cons_of_mem e he', t, ht, hreach⟩

/-- The message of what a pointer points to. -/
theorem generatePointee_spec {fuel : Nat} (hType : TypeCalls structs fuel) {s s' : State S}
    {type : TypeTree S} (hs : Consistent structs s) (hacc : Acc (flip (Needs structs)) type)
    (h : generatePointee (generateMessageForType structs fuel) s type = some s') :
    Consistent structs s' ∧ (∀ u, type = .pointer u → (s'.typeMessages u).isSome = true) ∧
      ∃ new, Adds structs s s' new true ∧
        ∀ u ∈ new, Relation.TransGen (Needs structs) type u := by
  cases type with
  | pointer elementType =>
    have hneeds : Needs structs (.pointer elementType) elementType := .inl rfl
    obtain ⟨hs', hmade, new, hadds, hnew⟩ := hType _ _ _ h hs (hacc.inv hneeds)
    refine ⟨hs', fun u hu => ?_, new, hadds, fun u hu => ?_⟩
    · cases hu
      exact hmade
    · exact Relation.TransGen.head' hneeds (hnew u hu)
  | _ =>
    cases h
    exact ⟨hs, fun u hu => (nomatch hu), [], .refl s, fun u hu => (List.not_mem_nil hu).elim⟩

theorem typeCalls_succ {fuel : Nat} (hType : TypeCalls structs fuel)
    (hFields : FieldsCalls structs fuel) : TypeCalls structs (fuel + 1) := by
  intro s type s' h hs hacc
  rw [generateMessageForType] at h
  by_cases hp : (s.typeMessages type).isSome = true
  · rw [if_pos hp] at h
    cases h
    exact ⟨hs, hp, [], .refl s, fun u hu => (List.not_mem_nil hu).elim⟩
  · rw [if_neg hp] at h
    obtain ⟨s₁, hs₁, h⟩ := Option.bind_eq_some_iff.1 h
    obtain ⟨r, hr, rfl⟩ := Option.map_eq_some_iff.1 h
    obtain ⟨hs₁, hpointee, new₁, hadds₁, hnew₁⟩ := generatePointee_spec hType hs hacc hs₁
    obtain ⟨hfields, hr, hmade, new, hadds, hnew⟩ :=
      hFields _ _ _ hr (hs₁.check _) fun u hu => hacc.inv hu
    have hall := (hadds₁.trans (.check s₁ (getMessageNameForType structs type))).trans hadds
    rw [List.append_nil, Bool.true_and] at hall
    have hreach : ∀ u ∈ new₁ ++ new, Relation.TransGen (Needs structs) type u := fun u hu =>
      (List.mem_append.1 hu).elim (hnew₁ u) (hnew u)
    have hself : type ∉ new₁ ++ new := fun hmem =>
      Cycles.not_transGen_of_acc hacc (hreach type hmem)
    have hsnone : s.typeMessages type = none := by simpa using hp
    have hrnone : r.2.typeMessages type = none := by
      rw [hall.typeMessages, if_neg hself, hsnone]
    have hmsg : ({ name := (getMessageNameForType structs type).text, fields := r.1 } :
        ProtoMessage) = messageOf structs type := by
      rw [hfields]
      rfl
    rw [hmsg]
    refine ⟨hr.addMessage hrnone fun u hu => ?_, ?_, _, hall.addMessage hsnone hself,
      fun u hu => ?_⟩
    · rcases hu with hptr | ⟨e, he, t, ht, rfl⟩
      · exact hadds.isSome (hpointee u hptr)
      · exact hmade e he t ht
    · rw [typeMessages_addMessage hrnone, if_pos rfl]
      rfl
    · rcases List.mem_append.1 hu with hu | hu
      · exact (hreach u hu).to_reflTransGen
      · rw [List.mem_singleton.1 hu]

theorem fieldsCalls_succ {fuel : Nat} (hField : FieldCalls structs fuel) :
    FieldsCalls structs (fuel + 1) := by
  intro s type r h hs hacc
  have hneeds : ∀ e ∈ fieldTypes structs type, ∀ t, TypeTree.leafStruct e = some t →
      Needs structs type (.struct t) := fun e he t ht => .inr ⟨e, he, t, ht, rfl⟩
  have hone : fieldTypes structs type = [type] → fieldsOf structs type =
      [fieldOf structs type "value" 1] →
      (generateMessageField structs fuel s type "value" 1).map
        (fun field => ([field.1], field.2)) = some r → FieldsSpec structs s type r := by
    intro htypes hfields h
    obtain ⟨field, hfield, rfl⟩ := Option.map_eq_some_iff.1 h
    rw [htypes] at hneeds
    obtain ⟨heq, hr, hmade, new, hadds, hnew⟩ := hField _ _ _ _ _ hfield hs fun t ht =>
      hacc _ (hneeds type (List.mem_singleton_self type) t ht)
    refine ⟨?_, hr, fun e he => ?_, new, ?_, fun u hu => ?_⟩
    · rw [hfields, ← heq]
    · rw [htypes, List.mem_singleton] at he
      rw [he]
      exact hmade
    · rw [htypes, List.all_cons, List.all_nil, Bool.and_true]
      exact hadds
    · obtain ⟨t, ht, hreach⟩ := hnew u hu
      exact Relation.TransGen.head' (hneeds type (List.mem_singleton_self type) t ht) hreach
  cases type with
  | struct t =>
    obtain ⟨heq, hr, hmade, new, hadds, hnew⟩ := elements_spec hField
      (fun e he t' ht' => hacc _ (hneeds e.1 (List.fst_mem_of_mem_zipIdx he) t' ht')) hs h
    refine ⟨heq, hr, fun e he => ?_, new, ?_, fun u hu => ?_⟩
    · obtain ⟨i, hi⟩ := List.mem_iff_getElem?.1 he
      exact hmade (e, i) (List.mk_mem_zipIdx_iff_getElem?.2 hi)
    · rw [← List.zipIdx_map_fst 0 (fieldTypes structs (.struct t)), List.all_map]
      exact hadds
    · obtain ⟨e, he, t', ht', hreach⟩ := hnew u hu
      exact Relation.TransGen.head' (hneeds e.1 (List.fst_mem_of_mem_zipIdx he) t' ht') hreach
  | _ => exact hone rfl rfl h

theorem fieldCalls_succ {fuel : Nat} (hType : TypeCalls structs fuel)
    (hField : FieldCalls structs fuel) : FieldCalls structs (fuel + 1) := by
  intro s type name fieldNum r h hs hacc
  have hscalar : ∀ type : TypeTree S, TypeTree.leaf type = type →
      TypeTree.isRepeated type = false → (∀ t, type ≠ .struct t) →
      some (({ type := (getScalarType type).text, name := name, number := fieldNum } :
        ProtoMessage.Field), s.check (getScalarType type)) = some r →
      FieldSpec structs s type name fieldNum r := by
    intro type hleaf hrepeated hstruct h
    cases h
    have hno : ∀ t, TypeTree.leafStruct type ≠ some t := fun t ht =>
      hstruct t (hleaf.symm.trans (leaf_eq_struct_iff.2 ht))
    refine ⟨?_, hs.check _, fun t ht => absurd ht (hno t), [], ?_,
      fun u hu => (List.not_mem_nil hu).elim⟩
    · unfold fieldOf
      rw [hleaf, hrepeated, valueType_eq hstruct]
      rfl
    · rw [hleaf, ← holds_getScalarType hstruct]
      exact .check s _
  cases type with
  | pointer elementType => exact hField s elementType name fieldNum r h hs hacc
  | array numElements elementType =>
    obtain ⟨field, hfield, rfl⟩ := Option.map_eq_some_iff.1 h
    obtain ⟨heq, hspec⟩ := hField s elementType name fieldNum field hfield hs hacc
    refine ⟨?_, hspec⟩
    dsimp only
    rw [heq]
    rfl
  | struct t =>
    obtain ⟨s₁, hs₁, rfl⟩ := Option.map_eq_some_iff.1 h
    have hspec : TypeSpec structs s (.struct t) s₁ := by
      by_cases hp : (s.typeMessages (.struct t)).isSome = true
      · rw [if_pos hp] at hs₁
        cases hs₁
        exact ⟨hs, hp, [], .refl s, fun u hu => (List.not_mem_nil hu).elim⟩
      · rw [if_neg hp] at hs₁
        exact hType _ _ _ hs₁ hs (hacc t rfl)
    obtain ⟨hs₁, hmade, new, hadds, hnew⟩ := hspec
    refine ⟨?_, hs₁, fun t' ht' => ?_, new, hadds, fun u hu => ⟨t, rfl, hnew u hu⟩⟩
    · obtain ⟨msg, hmsg⟩ := Option.isSome_iff_exists.1 hmade
      dsimp only
      rw [hmsg, hs₁.known _ _ hmsg]
      rfl
    · cases ht'
      exact hmade
  | _ => exact hscalar _ rfl rfl (fun t => nofun) h

/-- **What the three functions do.** -/
theorem calls_spec (fuel : Nat) :
    TypeCalls structs fuel ∧ FieldsCalls structs fuel ∧ FieldCalls structs fuel := by
  induction fuel with
  | zero =>
    refine ⟨fun s type s' h => ?_, fun s type r h => ?_, fun s type name fieldNum r h => ?_⟩
    · cases h
    · cases h
    · cases h
  | succ fuel ih =>
    obtain ⟨hType, hFields, hField⟩ := ih
    exact ⟨typeCalls_succ hType hFields, fieldsCalls_succ hField, fieldCalls_succ hType hField⟩

end Adds

/-! ## The messages of a partition -/

/-- A message is made for the type on account of a function of the partition. -/
def HasMessage (types : ModuleTypes F S) (partition : Partition F G) (u : TypeTree S) : Prop :=
  ∃ f ∈ partition.partition, ∃ type ∈ ModuleTypes.signature types f,
    Relation.ReflTransGen (Needs types.structs) type u

section Generate

variable [DecidableEq S] {types : ModuleTypes F S} {order : IterationOrder F}
  {partition : Partition F G} {protoName : String} {fuel : Nat}

/-- A run over a list of types. -/
theorem foldlM_generateMessageForType_spec {structs : S → StructType S} {l : List (TypeTree S)}
    (hacc : ∀ type ∈ l, Acc (flip (Needs structs)) type) {s s' : State S}
    (hs : Consistent structs s) (h : l.foldlM (generateMessageForType structs fuel) s = some s') :
    Consistent structs s' ∧ (∀ type ∈ l, (s'.typeMessages type).isSome = true) ∧
      ∃ new, Adds structs s s' new true ∧
        ∀ u ∈ new, ∃ type ∈ l, Relation.ReflTransGen (Needs structs) type u := by
  induction l generalizing s with
  | nil =>
    cases h
    exact ⟨hs, fun type htype => (List.not_mem_nil htype).elim, [], .refl _,
      fun u hu => (List.not_mem_nil hu).elim⟩
  | cons type l ih =>
    rw [List.foldlM_cons] at h
    obtain ⟨s₁, hs₁, h⟩ := Option.bind_eq_some_iff.1 h
    obtain ⟨hs₁, hmade₁, new₁, hadds₁, hnew₁⟩ :=
      (calls_spec fuel).1 _ _ _ hs₁ hs (hacc type List.mem_cons_self)
    obtain ⟨hs', hmade, new, hadds, hnew⟩ :=
      ih (fun u hu => hacc u (List.mem_cons_of_mem type hu)) hs₁ h
    refine ⟨hs', fun u hu => ?_, new₁ ++ new, hadds₁.trans hadds, fun u hu => ?_⟩
    · rcases List.mem_cons.1 hu with rfl | hu
      · exact hadds.isSome hmade₁
      · exact hmade u hu
    · rcases List.mem_append.1 hu with hu | hu
      · exact ⟨type, List.mem_cons_self, hnew₁ u hu⟩
      · obtain ⟨v, hv, hreach⟩ := hnew u hu
        exact ⟨v, List.mem_cons_of_mem type hv, hreach⟩

/-- **What `generate` makes**: one message for each type that has one. -/
theorem generate_spec {s : State S}
    (h : generate types order partition protoName fuel = some s) :
    ∃ made : List (TypeTree S), made.Nodup ∧ (∀ u, u ∈ made ↔ HasMessage types partition u) ∧
      s.protoFile.messages = made.map (messageOf types.structs) ∧
      s.assertionsHold = made.all (messageHolds types.structs) := by
  let start : State S := { protoFile := { version := "proto3", package := protoName } }
  have hguard : Guarded types.structs start := fun type htype => by cases htype
  have hstart : Consistent types.structs start :=
    ⟨fun type msg hmsg => (by cases hmsg), fun type htype => (by cases htype)⟩
  have hacc := acc_of_generateMessages hguard h
  unfold generate at h
  rw [generateMessages_eq] at h
  obtain ⟨hs, hmade, new, hadds, hnew⟩ := foldlM_generateMessageForType_spec hacc hstart h
  have hmem : ∀ u, (s.typeMessages u).isSome = true ↔ u ∈ new := by
    intro u
    rw [hadds.typeMessages]
    split
    · next hu => exact iff_of_true rfl hu
    · next hu => exact iff_of_false Bool.false_ne_true hu
  refine ⟨new, hadds.nodup, fun u => ⟨fun hu => ?_, ?_⟩, ?_, ?_⟩
  · obtain ⟨type, htype, hreach⟩ := hnew u hu
    obtain ⟨f, hf, htype⟩ := mem_startTypes.1 htype
    exact ⟨f, hf, type, htype, hreach⟩
  · rintro ⟨f, hf, type, htype, hreach⟩
    rw [← hmem]
    induction hreach with
    | refl => exact hmade type (mem_startTypes.2 ⟨f, hf, htype⟩)
    | tail _ hneeds ih => exact hs.closed _ ih _ hneeds
  · exact hadds.messages
  · exact hadds.assertionsHold

end Generate

/-! ## Well-formed files -/

/-- The scalar value types of proto3. -/
def scalarTypes : List String :=
  ["double", "float", "int32", "int64", "uint32", "uint64", "sint32", "sint64", "fixed32",
   "fixed64", "sfixed32", "sfixed64", "bool", "string", "bytes"]

structure WellFormed (file : ProtoFile) : Prop where
  messageNames : (file.messages.map (·.name)).Nodup
  fieldNames : ∀ m ∈ file.messages, (m.fields.map (·.name)).Nodup
  fieldNumbers : ∀ m ∈ file.messages, m.fields.map (·.number) = List.range' 1 m.fields.length
  fieldTypes : ∀ m ∈ file.messages, ∀ type ∈ m.fields.map (·.type),
    type ∈ scalarTypes ∨ type ∈ file.messages.map (·.name)

/-- `generate` ends, no assertion fails, and the file is well formed. -/
def GeneratesWellFormed [DecidableEq S] (types : ModuleTypes F S) (order : IterationOrder F)
    (partition : Partition F G) (protoName : String) : Prop :=
  ∃ fuel s, generate types order partition protoName fuel = some s ∧ s.assertionsHold = true ∧
    WellFormed s.protoFile

/-- What the types of a partition must be like. -/
structure Representable (types : ModuleTypes F S) (partition : Partition F G) : Prop where
  /-- no message is made for void, a pointer, or an array of these -/
  named : ∀ u, HasMessage types partition u →
    TypeTree.isValue (TypeTree.innermost u) = true
  /-- no field is made for void or a pointer to it -/
  valued : ∀ u, HasMessage types partition u → ∀ e ∈ fieldTypes types.structs u,
    TypeTree.isValue (TypeTree.leaf e) = true
  /-- an integer of another width gets the type `int` -/
  widths : ∀ u, HasMessage types partition u → ∀ e ∈ fieldTypes types.structs u,
    ∀ bitWidth, TypeTree.leaf e = .integer bitWidth → bitWidth ∈ [1, 32, 64] ∨
      ∃ v, HasMessage types partition v ∧ (getMessageNameForType types.structs v).text = "int"
  messageNames : ∀ u v, HasMessage types partition u → HasMessage types partition v →
    (getMessageNameForType types.structs u).text = (getMessageNameForType types.structs v).text →
      u = v
  fieldNames : ∀ t, HasMessage types partition (.struct t) →
    ((types.structs t).elements.map (getFieldName types.structs)).Nodup

section Fields

variable {structs : S → StructType S}

theorem map_type_fieldsOf (u : TypeTree S) : (fieldsOf structs u).map (·.type) =
    (fieldTypes structs u).map fun e => valueType structs (TypeTree.leaf e) := by
  cases u with
  | struct t =>
    unfold fieldsOf
    rw [← List.zipIdx_map_fst 0 (fieldTypes structs (.struct t)), List.map_map, List.map_map]
    rfl
  | _ => rfl

theorem map_name_fieldsOf (t : S) : (fieldsOf structs (.struct t)).map (·.name) =
    (structs t).elements.map (getFieldName structs) := by
  unfold fieldsOf
  conv_rhs => rw [← List.zipIdx_map_fst 0 (structs t).elements]
  rw [List.map_map, List.map_map]
  rfl

/-- Fields are numbered from `1` on, whatever the types are. -/
theorem map_number_fieldsOf (u : TypeTree S) :
    (fieldsOf structs u).map (·.number) = List.range' 1 (fieldsOf structs u).length := by
  cases u with
  | struct t =>
    unfold fieldsOf
    have hsucc : (fun e : TypeTree S × Nat => e.2 + 1) = (1 + ·) ∘ Prod.snd := by
      funext e
      exact Nat.add_comm e.2 1
    rw [List.map_map, List.length_map, List.length_zipIdx]
    show (structs t).elements.zipIdx.map (fun e => e.2 + 1) = _
    rw [hsucc, ← List.map_map, List.zipIdx_map_snd, List.map_add_range']
  | _ => rfl

/-- The integers that have a proto type, and the type of the others. -/
theorem valueType_integer (bitWidth : Nat) :
    valueType structs (.integer bitWidth) ∈ scalarTypes ∧ bitWidth ∈ [1, 32, 64] ∨
      valueType structs (.integer bitWidth) = "int" ∧ bitWidth ∉ [1, 32, 64] := by
  by_cases h1 : bitWidth = 1
  · subst h1
    exact .inl ⟨(by decide : "bool" ∈ scalarTypes), by decide⟩
  · by_cases h32 : bitWidth = 32
    · subst h32
      exact .inl ⟨(by decide : "int32" ∈ scalarTypes), by decide⟩
    · by_cases h64 : bitWidth = 64
      · subst h64
        exact .inl ⟨(by decide : "int64" ∈ scalarTypes), by decide⟩
      · refine .inr ⟨?_, by simp [h1, h32, h64]⟩
        simp [valueType, getScalarType, h1, h32, h64]

theorem int_notMem_scalarTypes : "int" ∉ scalarTypes := by decide

end Fields

section WellFormed

variable [DecidableEq S] {types : ModuleTypes F S} {order : IterationOrder F}
  {partition : Partition F G} {protoName : String} {fuel : Nat}

omit [DecidableEq S] in
/-- The struct type of a field has a message. -/
theorem HasMessage.leaf {u : TypeTree S} (hu : HasMessage types partition u) {e : TypeTree S}
    (he : e ∈ fieldTypes types.structs u) {t : S} (ht : TypeTree.leaf e = .struct t) :
    HasMessage types partition (.struct t) := by
  obtain ⟨f, hf, type, htype, hreach⟩ := hu
  exact ⟨f, hf, type, htype, hreach.tail (.inr ⟨e, he, t, leaf_eq_struct_iff.1 ht, rfl⟩)⟩

section File

variable {s : State S} (h : generate types order partition protoName fuel = some s)
include h

theorem assertionsHold_iff : s.assertionsHold = true ↔ ∀ u, HasMessage types partition u →
    TypeTree.isValue (TypeTree.innermost u) = true ∧
      ∀ e ∈ fieldTypes types.structs u, TypeTree.isValue (TypeTree.leaf e) = true := by
  obtain ⟨made, -, hmem, -, hholds⟩ := generate_spec h
  rw [hholds, List.all_eq_true]
  refine forall_congr' fun u => imp_congr (hmem u) ?_
  rw [messageHolds, Bool.and_eq_true, List.all_eq_true, holds_getMessageNameForType]

theorem forall_messages_iff {P : ProtoMessage → Prop} : (∀ m ∈ s.protoFile.messages, P m) ↔
    ∀ u, HasMessage types partition u → P (messageOf types.structs u) := by
  obtain ⟨made, -, hmem, hmessages, -⟩ := generate_spec h
  rw [hmessages, List.forall_mem_map]
  exact forall_congr' fun u => imp_congr_left (hmem u)

theorem mem_messageNames_iff {name : String} : name ∈ s.protoFile.messages.map (·.name) ↔ ∃ v,
    HasMessage types partition v ∧ (getMessageNameForType types.structs v).text = name := by
  obtain ⟨made, -, hmem, hmessages, -⟩ := generate_spec h
  rw [hmessages, List.map_map, List.mem_map]
  exact exists_congr fun v => and_congr_left fun _ => hmem v

theorem nodup_messageNames_iff : (s.protoFile.messages.map (·.name)).Nodup ↔ ∀ u v,
    HasMessage types partition u → HasMessage types partition v →
    (getMessageNameForType types.structs u).text = (getMessageNameForType types.structs v).text →
      u = v := by
  obtain ⟨made, hnodup, hmem, hmessages, -⟩ := generate_spec h
  rw [hmessages, List.map_map, List.nodup_map_iff_inj_on hnodup]
  constructor
  · exact fun hinj u v hu hv heq => hinj u ((hmem u).2 hu) v ((hmem v).2 hv) heq
  · exact fun hinj u hu v hv heq => hinj u v ((hmem u).1 hu) ((hmem v).1 hv) heq

theorem fieldTypes_iff : (∀ m ∈ s.protoFile.messages, ∀ type ∈ m.fields.map (·.type),
      type ∈ scalarTypes ∨ type ∈ s.protoFile.messages.map (·.name)) ↔
    ∀ u, HasMessage types partition u → ∀ e ∈ fieldTypes types.structs u,
      valueType types.structs (TypeTree.leaf e) ∈ scalarTypes ∨
        ∃ v, HasMessage types partition v ∧ (getMessageNameForType types.structs v).text =
          valueType types.structs (TypeTree.leaf e) := by
  rw [forall_messages_iff h]
  refine forall_congr' fun u => imp_congr_right fun _ => ?_
  show (∀ type ∈ (fieldsOf types.structs u).map (·.type), _) ↔ _
  rw [map_type_fieldsOf, List.forall_mem_map]
  simp only [mem_messageNames_iff h]

end File

omit [DecidableEq S] in
/-- The fields of representable types have a type of their own or the type of a message. -/
theorem Representable.fieldType (hrep : Representable types partition) {u : TypeTree S}
    (hu : HasMessage types partition u) {e : TypeTree S} (he : e ∈ fieldTypes types.structs u) :
    valueType types.structs (TypeTree.leaf e) ∈ scalarTypes ∨
      ∃ v, HasMessage types partition v ∧ (getMessageNameForType types.structs v).text =
        valueType types.structs (TypeTree.leaf e) := by
  have hvalue := hrep.valued u hu e he
  cases hleaf : TypeTree.leaf e with
  | struct t => exact .inr ⟨.struct t, hu.leaf he hleaf, rfl⟩
  | integer bitWidth =>
    rcases valueType_integer bitWidth with ⟨hscalar, -⟩ | ⟨hint, hwidth⟩
    · exact .inl hscalar
    · rw [hint]
      exact .inr ((hrep.widths u hu e he bitWidth hleaf).resolve_left hwidth)
  | float => exact .inl (by decide : "float" ∈ scalarTypes)
  | double => exact .inl (by decide : "double" ∈ scalarTypes)
  | _ =>
    rw [hleaf] at hvalue
    cases hvalue

omit [DecidableEq S] in
theorem Representable.nodup_fieldNames (hrep : Representable types partition) {u : TypeTree S}
    (hu : HasMessage types partition u) : ((fieldsOf types.structs u).map (·.name)).Nodup := by
  cases u with
  | struct t =>
    rw [map_name_fieldsOf]
    exact hrep.fieldNames t hu
  | _ => exact List.nodup_singleton _

/-- **A file is well formed exactly when the types are representable.** -/
theorem wellFormed_iff_representable {s : State S}
    (h : generate types order partition protoName fuel = some s) :
    s.assertionsHold = true ∧ WellFormed s.protoFile ↔ Representable types partition := by
  constructor
  · rintro ⟨hok, hfile⟩
    have hok := (assertionsHold_iff h).1 hok
    refine ⟨fun u hu => (hok u hu).1, fun u hu => (hok u hu).2, fun u hu e he bitWidth hleaf => ?_,
      (nodup_messageNames_iff h).1 hfile.messageNames, fun t ht => ?_⟩
    · have htype := (fieldTypes_iff h).1 hfile.fieldTypes u hu e he
      rw [hleaf] at htype
      rcases valueType_integer bitWidth with ⟨-, hwidth⟩ | ⟨hint, -⟩
      · exact .inl hwidth
      · rw [hint] at htype
        exact .inr (htype.resolve_left int_notMem_scalarTypes)
    · have hnames := (forall_messages_iff h).1 hfile.fieldNames (.struct t) ht
      rw [← map_name_fieldsOf]
      exact hnames
  · intro hrep
    refine ⟨(assertionsHold_iff h).2 fun u hu => ⟨hrep.named u hu, hrep.valued u hu⟩,
      (nodup_messageNames_iff h).2 hrep.messageNames, (forall_messages_iff h).2 fun u hu => ?_,
      (forall_messages_iff h).2 fun u hu => ?_, (fieldTypes_iff h).2 fun u hu e he => ?_⟩
    · exact hrep.nodup_fieldNames hu
    · exact map_number_fieldsOf u
    · exact hrep.fieldType hu he

theorem representable_of_generates (h : GeneratesWellFormed types order partition protoName) :
    Representable types partition := by
  obtain ⟨fuel, s, hs, hfile⟩ := h
  exact (wellFormed_iff_representable hs).1 hfile

/-- **Well-formedness of the generated file.**  For types that do not refer back to themselves,
`generate` passes its assertions and makes a well-formed file exactly when the types are
representable. -/
theorem generatesWellFormed_iff [Finite S] (types : ModuleTypes F S) (order : IterationOrder F)
    (partition : Partition F G) (protoName : String) (hnonrec : NonRecursive types partition) :
    GeneratesWellFormed types order partition protoName ↔ Representable types partition := by
  refine ⟨representable_of_generates, fun hrep => ?_⟩
  obtain ⟨fuel, s, hs⟩ := exists_generate_of_nonRecursive order protoName hnonrec
  exact ⟨fuel, s, hs, (wellFormed_iff_representable hs).2 hrep⟩

end WellFormed

/-! ## Points -/

/-- A function with a parameter of type `struct point`; a point has the coordinates. -/
def pointTypes (returnType : TypeTree Unit) (coordinates : List (TypeTree Unit)) :
    ModuleTypes Unit Unit where
  structs _ := { getName := "struct.point", elements := coordinates }
  getReturnType _ := returnType
  getParamTypes _ := [.struct ()]

theorem nonRecursive_pointTypes {returnType : TypeTree Unit} {coordinates : List (TypeTree Unit)}
    (h : ∀ e ∈ coordinates, TypeTree.leafStruct e = none) :
    NonRecursive (pointTypes returnType coordinates) sumPartition := by
  intro t _ u _ hcycle
  obtain ⟨b, ⟨e, he, hleaf⟩, -⟩ := Relation.TransGen.head'_iff.1 hcycle
  rw [h e he] at hleaf
  cases hleaf

/-- The fields for the two coordinates of a point have the same name; no message is made for the
return type of a void function. -/
theorem point_not_wellFormed :
    (NonRecursive (pointTypes .double [.integer 32, .integer 32]) sumPartition ∧
      ¬ GeneratesWellFormed (pointTypes .double [.integer 32, .integer 32]) .unit sumPartition
        "norm") ∧
    NonRecursive (pointTypes .void [.integer 32]) sumPartition ∧
      ¬ GeneratesWellFormed (pointTypes .void [.integer 32]) .unit sumPartition "print" := by
  refine ⟨⟨nonRecursive_pointTypes (by simp [TypeTree.leafStruct]), fun h => ?_⟩,
    nonRecursive_pointTypes (by simp [TypeTree.leafStruct]), fun h => ?_⟩
  · have hnames := (representable_of_generates h).fieldNames ()
      ⟨(), Finset.mem_singleton_self (), .struct (), List.mem_cons_of_mem _ List.mem_cons_self,
        .refl⟩
    exact absurd hnames (by decide : ¬ (["value", "value"] : List String).Nodup)
  · have hvoid := (representable_of_generates h).named .void
      ⟨(), Finset.mem_singleton_self (), .void, List.mem_cons_self, .refl⟩
    exact absurd hvoid (by decide)

/-! ## A disk -/

inductive Shape
  | point
  | disk
deriving DecidableEq

instance : Fintype Shape where
  elems := {.point, .disk}
  complete t := by cases t <;> decide

/-- The function `double area(struct disk d)`; a disk has a center, which is an array of two numbers
in a struct of its own, and a radius.  In front of the names of the structs stands `tag`. -/
def diskTypes (tag : String) : ModuleTypes Unit Shape where
  structs
    | .point => { getName := tag ++ "point", elements := [.array 2 (.integer 32)] }
    | .disk => { getName := tag ++ "disk", elements := [.struct .point, .double] }
  getReturnType _ := .double
  getParamTypes _ := [.struct .disk]

/-- The types with messages. -/
def diskMessages : List (TypeTree Shape) := [.double, .struct .disk, .struct .point]

/-- Messages are made for the types of the signatures and for what their fields lead to. -/
theorem mem_of_hasMessage {types : ModuleTypes F S} {partition : Partition F G}
    {l : List (TypeTree S)}
    (hstart : ∀ f ∈ partition.partition, ∀ type ∈ ModuleTypes.signature types f, type ∈ l)
    (hclosed : ∀ u ∈ l, ∀ v, Needs types.structs u v → v ∈ l) {u : TypeTree S}
    (h : HasMessage types partition u) : u ∈ l := by
  obtain ⟨f, hf, type, htype, hreach⟩ := h
  induction hreach with
  | refl => exact hstart f hf type htype
  | tail _ hneeds ih => exact hclosed _ ih _ hneeds

theorem disk_hasMessage {tag : String} {u : TypeTree Shape}
    (h : HasMessage (diskTypes tag) sumPartition u) : u ∈ diskMessages := by
  refine mem_of_hasMessage (fun f _ type htype => ?_) (fun u hu v hneeds => ?_) h
  · have hsignature : ∀ type ∈ ([.double, .struct .disk] : List (TypeTree Shape)),
        type ∈ diskMessages := by decide
    exact hsignature type htype
  · have hfields : ∀ u ∈ diskMessages, (∀ w, u ≠ .pointer w) ∧
        ∀ e ∈ fieldTypes (diskTypes "").structs u, ∀ t ∈ TypeTree.leafStruct e,
          .struct t ∈ diskMessages := by
      refine fun u hu => ⟨fun w hw => ?_, ?_⟩
      · subst hw
        simp [diskMessages] at hu
      · revert u
        decide
    rcases hneeds with hptr | ⟨e, he, t, hleaf, rfl⟩
    · exact absurd hptr ((hfields u hu).1 v)
    · refine (hfields u hu).2 e ?_ t hleaf
      cases u with
      | struct t => cases t <;> exact he
      | _ => exact he

theorem nonRecursive_disk (tag : String) : NonRecursive (diskTypes tag) sumPartition := by
  intro t _ u _ hcycle
  -- a disk refers to a point, which refers to nothing
  have hpoint : ∀ v, ¬ Refers (diskTypes tag).structs .point v := by
    rintro v ⟨e, he, hleaf⟩
    rw [List.mem_singleton.1 he] at hleaf
    cases hleaf
  have hdisk : ∀ v, Refers (diskTypes tag).structs .disk v → v = .point := by
    rintro v ⟨e, he, hleaf⟩
    rcases List.mem_cons.1 he with rfl | he
    · exact (Option.some.inj hleaf).symm
    · rw [List.mem_singleton.1 he] at hleaf
      cases hleaf
  obtain ⟨v, hv, hrest⟩ := Relation.TransGen.head'_iff.1 hcycle
  cases u with
  | point => exact hpoint v hv
  | disk =>
    obtain rfl := hdisk v hv
    rcases Relation.ReflTransGen.cases_head hrest with heq | ⟨w, hw, -⟩
    · cases heq
    · exact hpoint w hw

theorem disk_wellFormed :
    GeneratesWellFormed (diskTypes "struct.") .unit sumPartition "area" := by
  refine (generatesWellFormed_iff _ .unit sumPartition "area" (nonRecursive_disk "struct.")).2 ?_
  have hwidths : ∀ u ∈ diskMessages, ∀ e ∈ fieldTypes (diskTypes "struct.").structs u,
      TypeTree.leaf e ∈ [.integer 32, .double, .struct Shape.point] := by decide
  have hnames : ∀ u ∈ diskMessages, ∀ v ∈ diskMessages,
      (getMessageNameForType (diskTypes "struct.").structs u).text =
        (getMessageNameForType (diskTypes "struct.").structs v).text → u = v := by decide
  have hfieldNames : ∀ t, (((diskTypes "struct.").structs t).elements.map
      (getFieldName (diskTypes "struct.").structs)).Nodup := by decide
  have hvalued : ∀ u ∈ diskMessages, TypeTree.isValue (TypeTree.innermost u) = true ∧
      ∀ e ∈ fieldTypes (diskTypes "struct.").structs u,
        TypeTree.isValue (TypeTree.leaf e) = true := by decide
  refine ⟨fun u hu => (hvalued u (disk_hasMessage hu)).1,
    fun u hu => (hvalued u (disk_hasMessage hu)).2, fun u hu e he bitWidth hleaf => .inl ?_,
    fun u v hu hv => hnames u (disk_hasMessage hu) v (disk_hasMessage hv),
    fun t _ => hfieldNames t⟩
  have hmem := hwidths u (disk_hasMessage hu) e he
  rw [hleaf] at hmem
  simp only [List.mem_cons, List.not_mem_nil, or_false, TypeTree.integer.injEq, reduceCtorEq] at hmem
  rw [hmem]
  decide

end ProtoFileGenerator

end Vazgen
