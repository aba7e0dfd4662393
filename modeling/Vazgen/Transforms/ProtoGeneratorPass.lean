import Vazgen.CodeGen.ProtoFileWriter

/-!
# The proto file of the enclave

`runOnModule` generates the proto file of the secure partition and writes it.  The generator keeps a
reference to the text that it is constructed with, which is a temporary here: what `generate` reads
there when it sets the package can be any text.

The file is read back as what was generated exactly if the functions take and return values only, and
the text that is read as the package and the struct types have names of proto3
(`writesReadable_iff`).  LLVM calls a struct of C `struct.name`, which is no name of a message.
-/

namespace Vazgen

open ProtoFileWriter ProtoSyntax ProtoFileGenerator

variable {F G S : Type}

/-- The generator adds no imports, enums and services. -/
def ProtoFileWriter.File.ofProtoFile (file : ProtoFile) : File where
  version := file.version
  package := file.package
  messages := file.messages.map fun msg => { toProtoMessage := msg }

namespace ProtoGeneratorPass

/-- The name of the file and what is in it; `none` when the fuel is used up or an assertion fails.
`protoName` is what `generate` finds at `m_protoName`, which refers to a temporary that is gone. -/
def runOnModule [DecidableEq S] (types : ModuleTypes F S) (order : IterationOrder F)
    (partition : Partition F G) (protoName moduleName : String) (fuel : Nat) :
    Option (String × List Char) :=
  (generate types order partition protoName fuel).bind fun s =>
    if s.assertionsHold then
      some (moduleName ++ "_enclave.proto", FileWriter.contents (write (.ofProtoFile s.protoFile)))
    else none

/-! ## What does not change -/

section Header

variable [DecidableEq S] {structs : S → StructType S}

def header (s : State S) : String × String := (s.protoFile.version, s.protoFile.package)

/-- What the three functions leave as it is. -/
theorem header_calls (fuel : Nat) :
    (∀ s type s', generateMessageForType structs fuel s type = some s' → header s' = header s) ∧
    (∀ s type r, generateMessageFields structs fuel s type = some r → header r.2 = header s) ∧
    ∀ s type name fieldNum r, generateMessageField structs fuel s type name fieldNum = some r →
      header r.2 = header s := by
  induction fuel with
  | zero =>
    refine ⟨fun s type s' h => ?_, fun s type r h => ?_, fun s type name fieldNum r h => ?_⟩
    · cases h
    · cases h
    · cases h
  | succ fuel ih =>
    obtain ⟨ihType, ihFields, ihField⟩ := ih
    refine ⟨fun s type s' h => ?_, fun s type r h => ?_, fun s type name fieldNum r h => ?_⟩
    · rw [generateMessageForType] at h
      split_ifs at h
      · exact Option.some.inj h ▸ rfl
      · obtain ⟨s₁, hs₁, h⟩ := Option.bind_eq_some_iff.1 h
        obtain ⟨r, hr, rfl⟩ := Option.map_eq_some_iff.1 h
        have hpointee : header s₁ = header s := by
          cases type with
          | pointer elementType => exact ihType _ _ _ hs₁
          | _ => exact Option.some.inj hs₁ ▸ rfl
        exact (ihFields _ _ _ hr).trans hpointee
    · have hone : ∀ type, (generateMessageField structs fuel s type "value" 1).map
          (fun field => ([field.1], field.2)) = some r → header r.2 = header s := by
        intro type h
        obtain ⟨field, hfield, rfl⟩ := Option.map_eq_some_iff.1 h
        exact ihField _ _ _ _ _ hfield
      cases type with
      | struct t =>
        refine Worklist.foldlM_induct (P := fun r => header r.2 = header s) ?_ rfl h
        intro r₁ e r₂ _ hr₁ hstep
        obtain ⟨field, hfield, rfl⟩ := Option.map_eq_some_iff.1 hstep
        exact (ihField _ _ _ _ _ hfield).trans hr₁
      | _ => exact hone _ h
    · cases type with
      | pointer elementType => exact ihField _ _ _ _ _ h
      | array numElements elementType =>
        obtain ⟨field, hfield, rfl⟩ := Option.map_eq_some_iff.1 h
        exact ihField s elementType name fieldNum field hfield
      | struct t =>
        obtain ⟨s₁, hs₁, rfl⟩ := Option.map_eq_some_iff.1 h
        split_ifs at hs₁
        · exact Option.some.inj hs₁ ▸ rfl
        · exact ihType _ _ _ hs₁
      | _ => exact Option.some.inj h ▸ rfl

theorem header_generate {types : ModuleTypes F S} {order : IterationOrder F}
    {partition : Partition F G} {protoName : String} {fuel : Nat} {s : State S}
    (h : generate types order partition protoName fuel = some s) :
    header s = ("proto3", protoName) := by
  unfold generate at h
  rw [generateMessages_eq] at h
  exact Worklist.foldlM_induct (P := fun s => header s = ("proto3", protoName))
    (fun s₁ type s₂ _ hs₁ hstep => ((header_calls fuel).1 _ _ _ hstep).trans hs₁) rfl h

end Header

/-! ## Names of a message -/

/-- What the module must be like, and the text that is read as the package. -/
structure Spelled (types : ModuleTypes F S) (partition : Partition F G) (protoName : String) :
    Prop where
  package : isFullIdent true protoName.toList = true
  /-- no message is made for void, a pointer, or an array of these -/
  named : ∀ u, HasMessage types partition u → TypeTree.isValue (TypeTree.innermost u) = true
  /-- no field is made for void or a pointer to it -/
  valued : ∀ u, HasMessage types partition u → ∀ e ∈ fieldTypes types.structs u,
    TypeTree.isValue (TypeTree.leaf e) = true
  structs : ∀ t, HasMessage types partition (.struct t) →
    isIdent (types.structs t).getName.toList = true
  /-- no field has a type with the name of a keyword -/
  keywords : ∀ u, HasMessage types partition u → ∀ e ∈ fieldTypes types.structs u,
    ∀ t, TypeTree.leaf e = .struct t → (types.structs t).getName ∉ keywords

section Named

variable {types : ModuleTypes F S} {partition : Partition F G} {protoName : String}

theorem isIdent_append {w v : List Char} (hw : isIdent w = true)
    (hv : (v.all fun c => c.isAlphanum || c = '_') = true) : isIdent (w ++ v) = true := by
  cases w with
  | nil => cases hw
  | cons c w =>
    obtain ⟨hc, hw⟩ := Bool.and_eq_true_iff.1 hw
    rw [List.cons_append, isIdent, List.all_append, hc, hw, hv]
    rfl

theorem isIdent_messageName {structs : S → StructType S} {u : TypeTree S}
    (hvalue : TypeTree.isValue (TypeTree.innermost u) = true)
    (hstruct : ∀ t, TypeTree.innermost u = .struct t → isIdent (structs t).getName.toList = true) :
    isIdent (getMessageNameForType structs u).text.toList = true := by
  induction u with
  | array numElements elementType ih =>
    have hname := ih hvalue hstruct
    show isIdent ((getMessageNameForType structs elementType).text ++ "Array").toList = true
    rw [String.toList_append]
    exact isIdent_append hname (by decide)
  | struct t => exact hstruct t rfl
  | integer bitWidth =>
    unfold getMessageNameForType getMessageNameForScalar
    dsimp only
    split_ifs <;> decide
  | float => exact (by decide : isIdent "Float".toList = true)
  | double => exact (by decide : isIdent "Double".toList = true)
  | _ => cases hvalue

theorem isTypeName_struct {name : String} (hident : isIdent name.toList = true)
    (hkeyword : name ∉ ProtoSyntax.keywords) : isTypeName name.toList = true := by
  unfold isTypeName
  rw [isFullIdent_of_isIdent hident, Bool.true_and, Bool.not_eq_true', List.contains_eq_mem,
    decide_eq_false_iff_not, List.mem_map]
  rintro ⟨s, hs, heq⟩
  exact hkeyword (String.toList_inj.1 heq ▸ hs)

theorem isTypeName_valueType {structs : S → StructType S} {type : TypeTree S}
    (hvalue : TypeTree.isValue type = true)
    (hstruct : ∀ t, type = .struct t → isTypeName (structs t).getName.toList = true) :
    isTypeName (valueType structs type).toList = true := by
  cases type with
  | struct t => exact hstruct t rfl
  | integer bitWidth =>
    unfold valueType getScalarType
    dsimp only
    split_ifs <;> decide
  | float => exact (by decide : isTypeName "float".toList = true)
  | double => exact (by decide : isTypeName "double".toList = true)
  | _ => cases hvalue

theorem leaf_of_innermost {u : TypeTree S} {t : S} (h : TypeTree.innermost u = .struct t) :
    TypeTree.leaf u = .struct t := by
  induction u with
  | array numElements elementType ih => exact ih h
  | struct t' => exact h
  | _ => cases h

theorem Spelled.struct_hasMessage {u : TypeTree S} (hu : HasMessage types partition u) {t : S}
    (h : TypeTree.innermost u = .struct t) : HasMessage types partition (.struct t) := by
  cases u with
  | struct t' => exact h ▸ hu
  | _ => exact hu.leaf List.mem_cons_self (leaf_of_innermost h)

theorem Spelled.fieldNamed (h : Spelled types partition protoName) {u : TypeTree S}
    (hu : HasMessage types partition u) {e : TypeTree S} (he : e ∈ fieldTypes types.structs u)
    {name : String} (hname : isIdent name.toList = true) (number : Nat) :
    FieldNamed (fieldOf types.structs e name number) where
  attr := by
    unfold fieldOf
    split_ifs
    · exact .inr rfl
    · exact .inl rfl
  type := isTypeName_valueType (h.valued u hu e he) fun t ht =>
    isTypeName_struct (h.structs t (hu.leaf he ht)) (h.keywords u hu e he t ht)
  name := hname

theorem Spelled.isIdent_getFieldName (h : Spelled types partition protoName) {u : TypeTree S}
    (hu : HasMessage types partition u) {e : TypeTree S} (he : e ∈ fieldTypes types.structs u) :
    isIdent (getFieldName types.structs e).toList = true := by
  cases e with
  | struct t =>
    have hident := h.structs t (hu.leaf he rfl)
    show isIdent ((types.structs t).getName ++ "Value").toList = true
    rw [String.toList_append]
    exact isIdent_append hident (by decide)
  | array _ _ => exact (by decide : isIdent "arrayValue".toList = true)
  | _ => exact (by decide : isIdent "value".toList = true)

theorem Spelled.messageNamed (h : Spelled types partition protoName) {u : TypeTree S}
    (hu : HasMessage types partition u) :
    MessageNamed { toProtoMessage := messageOf types.structs u } := by
  refine ⟨isIdent_messageName (h.named u hu) fun t ht => ?_, fun f hf => ?_,
    fun e he => (List.not_mem_nil he).elim⟩
  · exact h.structs t (struct_hasMessage hu ht)
  · have hone : fieldTypes types.structs u = [u] → f ∈ [fieldOf types.structs u "value" 1] →
        FieldNamed f := by
      intro htypes hf
      rw [List.mem_singleton.1 hf]
      exact h.fieldNamed hu (htypes ▸ List.mem_singleton_self u) (by decide) 1
    cases u with
    | struct t =>
      obtain ⟨e, he, rfl⟩ := List.mem_map.1 hf
      have he := List.fst_mem_of_mem_zipIdx he
      exact h.fieldNamed hu he (h.isIdent_getFieldName hu he) _
    | _ => exact hone rfl hf

/-- The types of the fields are no keywords. -/
theorem notMem_keywords {u : TypeTree S}
    (h : MessageNamed { toProtoMessage := messageOf types.structs u }) {e : TypeTree S}
    (he : e ∈ fieldTypes types.structs u) {t : S} (ht : TypeTree.leaf e = .struct t) :
    (types.structs t).getName ∉ ProtoSyntax.keywords := by
  intro hkeyword
  have htype : (types.structs t).getName ∈ (fieldsOf types.structs u).map (·.type) := by
    rw [map_type_fieldsOf]
    exact List.mem_map.2 ⟨e, he, by rw [ht]; rfl⟩
  obtain ⟨f, hf, hname⟩ := List.mem_map.1 htype
  exact ne_keyword (h.fields f hf).type hkeyword (by rw [hname])

theorem isReadable_ofProtoFile (file : ProtoFile) : isReadable (.ofProtoFile file) = true := by
  simp [isReadable, File.ofProtoFile, isMessageNumbered]

end Named

/-! ## Top theorem -/

section Top

variable [DecidableEq S]

/-- **What is generated is readable exactly if the module is spelled as it must be.** -/
theorem readable_iff_spelled {types : ModuleTypes F S} {order : IterationOrder F}
    {partition : Partition F G} {protoName : String} {fuel : Nat} {s : State S}
    (h : generate types order partition protoName fuel = some s) :
    s.assertionsHold = true ∧ read (FileWriter.contents (write (.ofProtoFile s.protoFile))) =
        some (.ofProtoFile s.protoFile) ↔ Spelled types partition protoName := by
  obtain ⟨hversion, hpackage⟩ := Prod.mk.inj (header_generate h)
  rw [read_written_iff]
  constructor
  · rintro ⟨hok, hfile, -⟩
    have hok := (assertionsHold_iff h).1 hok
    have hmessages : ∀ u, HasMessage types partition u →
        MessageNamed { toProtoMessage := messageOf types.structs u } :=
      (forall_messages_iff h).1 fun m hm => hfile.messages _ (List.mem_map_of_mem hm)
    refine ⟨hpackage ▸ hfile.package, fun u hu => (hok u hu).1, fun u hu => (hok u hu).2,
      fun t ht => (hmessages _ ht).name, fun u hu e he t ht => ?_⟩
    exact notMem_keywords (hmessages u hu) he ht
  · intro hspelled
    refine ⟨(assertionsHold_iff h).2 fun u hu => ⟨hspelled.named u hu, hspelled.valued u hu⟩,
      ⟨hversion, ?_, fun i hi => (List.not_mem_nil hi).elim, ?_,
        fun s hs => (List.not_mem_nil hs).elim⟩, isReadable_ofProtoFile _⟩
    · rw [File.ofProtoFile, hpackage]
      exact hspelled.package
    · have hmessages : ∀ m ∈ s.protoFile.messages, MessageNamed { toProtoMessage := m } :=
        (forall_messages_iff h).2 fun u hu => hspelled.messageNamed hu
      exact List.forall_mem_map.2 hmessages

/-- The pass ends, no assertion fails, and what it writes is read as what was generated. -/
def WritesReadable (types : ModuleTypes F S) (order : IterationOrder F) (partition : Partition F G)
    (protoName moduleName : String) : Prop :=
  ∃ fuel s text, generate types order partition protoName fuel = some s ∧
    runOnModule types order partition protoName moduleName fuel =
      some (moduleName ++ "_enclave.proto", text) ∧ read text = some (.ofProtoFile s.protoFile)

/-- **When the proto file can be used**, for types that do not refer back to themselves and any text
that is read as the package. -/
theorem writesReadable_iff [Finite S] (types : ModuleTypes F S) (order : IterationOrder F)
    (partition : Partition F G) (protoName moduleName : String)
    (hnonrec : NonRecursive types partition) :
    WritesReadable types order partition protoName moduleName ↔
      Spelled types partition protoName := by
  constructor
  · rintro ⟨fuel, s, text, hs, hrun, hread⟩
    rw [runOnModule, hs, Option.bind_some] at hrun
    obtain ⟨hok, heq⟩ := Option.ite_none_right_eq_some.1 hrun
    obtain ⟨-, rfl⟩ := Prod.mk.inj (Option.some.inj heq)
    exact (readable_iff_spelled hs).1 ⟨hok, hread⟩
  · intro hspelled
    obtain ⟨fuel, s, hs⟩ := exists_generate_of_nonRecursive order protoName hnonrec
    obtain ⟨hok, hread⟩ := (readable_iff_spelled hs).2 hspelled
    refine ⟨fuel, s, _, hs, ?_, hread⟩
    rw [runOnModule, hs, Option.bind_some, if_pos hok]

omit [DecidableEq S] in
/-- Disks and points can be written under their own names, if what is read as the package is a name;
not under the names that LLVM gives to structs of C. -/
theorem disk_writesReadable :
    WritesReadable (diskTypes "") .unit sumPartition "shapes" "shapes" ∧
      ¬ WritesReadable (diskTypes "") .unit sumPartition "" "shapes" ∧
      ¬ WritesReadable (diskTypes "struct.") .unit sumPartition "shapes" "shapes" := by
  have hiff := fun tag protoName => writesReadable_iff (diskTypes tag) .unit sumPartition protoName
    "shapes" (nonRecursive_disk tag)
  refine ⟨(hiff "" "shapes").2 ?_, fun h => ?_, fun h => ?_⟩
  · have hvalued : ∀ u ∈ diskMessages, TypeTree.isValue (TypeTree.innermost u) = true ∧
        ∀ e ∈ fieldTypes (diskTypes "").structs u, TypeTree.isValue (TypeTree.leaf e) = true := by
      decide
    have hnames : ∀ t, isIdent ((diskTypes "").structs t).getName.toList = true ∧
        ((diskTypes "").structs t).getName ∉ keywords := by decide
    exact ⟨by decide, fun u hu => (hvalued u (disk_hasMessage hu)).1,
      fun u hu => (hvalued u (disk_hasMessage hu)).2, fun t _ => (hnames t).1,
      fun _ _ _ _ t _ => (hnames t).2⟩
  · exact absurd ((hiff "" "").1 h).package (by decide)
  · have hident := ((hiff "struct." "shapes").1 h).structs .disk
      ⟨(), Finset.mem_singleton_self (), .struct .disk, List.mem_cons_of_mem _ List.mem_cons_self,
        .refl⟩
    exact absurd hident (by decide)

end Top

end ProtoGeneratorPass

end Vazgen
