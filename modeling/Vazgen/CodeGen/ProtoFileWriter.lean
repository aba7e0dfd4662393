import Vazgen.CodeGen.ProtoMessages
import Vazgen.Lib.Reader
import Vazgen.Lib.ScanInt

/-!
# The text of a proto file

`ProtoFileWriter` writes a file piece by piece, each piece on a line of its own.  The reader follows
the syntax of proto3, in which lines do not count.  It reads back what was written exactly if the file
has no RPC and no enum value without a number, and its names are names of proto3
(`read_contents_iff`).

An RPC never passes, as the writer has `return` where the syntax has `returns`.
-/

namespace Vazgen

variable {F G S : Type}

/-- `ProtoMessage::Enum`; a value without initializer has the number -1. -/
structure ProtoMessage.Enum where
  name : String
  values : List (String × Int)
deriving DecidableEq

namespace ProtoFileWriter

/-! ## Files -/

/-- `ProtoMessage` with its enums. -/
structure Message extends ProtoMessage where
  enums : List ProtoMessage.Enum := []
deriving DecidableEq

/-- `ProtoService::RPC` -/
structure RPC where
  name : String
  input : Message
  output : Message
deriving DecidableEq

/-- `ProtoService` -/
structure Service where
  name : String
  rpcs : List RPC
deriving DecidableEq

/-- `ProtoFile` with its imports, enums and services. -/
structure File where
  version : String
  package : String
  imports : List String := []
  messages : List Message
  services : List Service := []
deriving DecidableEq

/-! ## The writer -/

def writeProtoImport (name : String) : String := "import \"" ++ name ++ "\";"

def writeMessageField (field : ProtoMessage.Field) : List String :=
  [field.attr ++ " ", field.type ++ " ", field.name ++ " ", " = ",
    String.ofList (ScanInt.print field.number), ";"]

/-- The loop body of `writeMessageEnum`. -/
def writeEnumValue (value : String × Int) : String :=
  if value.2 = -1 then value.1 ++ ";"
  else value.1 ++ " = " ++ String.ofList (ScanInt.print value.2) ++ ";"

def writeMessageEnum (enum : ProtoMessage.Enum) : List String :=
  ("enum " ++ enum.name ++ " \x7b") :: enum.values.map writeEnumValue ++ ["\x7d"]

def writeProtoMessage (msg : Message) : List String :=
  ("message " ++ msg.name ++ " \x7b\n") ::
    (msg.fields.flatMap writeMessageField ++ msg.enums.flatMap writeMessageEnum) ++ ["\x7d"]

def writeServiceRpc (rpc : RPC) : List String :=
  ["rpc ", rpc.name ++ " ", "(" ++ rpc.input.name ++ ") ",
    "return (" ++ rpc.output.name ++ ") \x7b\x7d"]

def writeProtoService (service : Service) : List String :=
  ("service " ++ service.name ++ " \x7b") :: service.rpcs.flatMap writeServiceRpc ++ ["\x7d"]

/-- `write`: the texts that are passed to the `FileWriter`. -/
def write (file : File) : List String :=
  ("syntax = \"" ++ file.version ++ "\";") :: ("package " ++ file.package ++ ";") ::
    (file.imports.map writeProtoImport ++
      (file.messages.flatMap writeProtoMessage ++ file.services.flatMap writeProtoService))

end ProtoFileWriter

/-- `FileWriter::write`, without indentation. -/
def FileWriter.write (text : String) : List Char := text.toList ++ ['\n']

/-- What is in a file after texts have been written. -/
def FileWriter.contents (texts : List String) : List Char := texts.flatMap FileWriter.write

/-! ## The syntax -/

namespace ProtoSyntax

open Reader ProtoFileWriter

def isWordChar (c : Char) : Bool := c.isAlphanum || c = '_' || c = '.'

def isIdent : List Char → Bool
  | [] => false
  | c :: cs => (c.isAlpha || c = '_') && cs.all fun c => c.isAlphanum || c = '_'

/-- Identifiers with dots between them; `isFirst` at the first character of an identifier. -/
def isFullIdent (isFirst : Bool) : List Char → Bool
  | [] => !isFirst
  | c :: cs =>
    if isFirst then (c.isAlpha || c = '_') && isFullIdent false cs
    else if c = '.' then isFullIdent true cs
    else (c.isAlphanum || c = '_') && isFullIdent false cs

/-- What a message may have beside fields, and what may stand before a field. -/
def keywords : List String :=
  ["enum", "extend", "extensions", "group", "map", "message", "oneof", "option", "optional",
    "repeated", "required", "reserved"]

def isTypeName (w : List Char) : Bool := isFullIdent true w && !(keywords.map String.toList).contains w

/-- A literal as it can be written without escapes. -/
def isPlain (w : List Char) : Bool := w.all fun c => !(c = '"' || c = '\\' || c = '\n')

def wordThat (p : List Char → Bool) : Reader Token String :=
  token fun
    | .word w => if p w then some (String.ofList w) else none
    | _ => none

def literal : Reader Token String :=
  token fun
    | .literal w => if isPlain w then some (String.ofList w) else none
    | _ => none

/-- Decimal, without leading zeros. -/
def number : Reader Token Nat :=
  token fun
    | .word w => if Nat.toDigits 10 (Nat.ofDigitChars 10 w 0) = w then some (Nat.ofDigitChars 10 w 0)
      else none
    | _ => none

def keyword (s : String) : Reader Token Unit := expect (.word s.toList)

def symbol (c : Char) : Reader Token Unit := expect (.symbol c)

def integer : Reader Token Int :=
  Reader.or (do
    symbol '-'
    let n ← number
    pure (-(n : Int))) do
    let n ← number
    pure (n : Int)

/-- A field behind its label. -/
def fieldAfter (label : String) : Reader Token ProtoMessage.Field := do
  let type ← wordThat isTypeName
  let name ← wordThat isIdent
  symbol '='
  let n ← number
  symbol ';'
  pure { attr := label, type := type, name := name, number := n }

def field : Reader Token ProtoMessage.Field :=
  Reader.or (do
    keyword "repeated"
    fieldAfter "repeated") (fieldAfter "")

def enumValue : Reader Token (String × Int) := do
  let name ← wordThat isIdent
  symbol '='
  let n ← integer
  symbol ';'
  pure (name, n)

def enum : Reader Token ProtoMessage.Enum := do
  keyword "enum"
  let name ← wordThat isIdent
  symbol '\x7b'
  let values ← manyUntil (.symbol '\x7d') enumValue
  pure { name := name, values := values }

/-- What is in a message. -/
def element : Reader Token (ProtoMessage.Field ⊕ ProtoMessage.Enum) :=
  Reader.or (do
    let enum ← enum
    pure (.inr enum)) do
    let field ← field
    pure (.inl field)

def message : Reader Token Message := do
  keyword "message"
  let name ← wordThat isIdent
  symbol '\x7b'
  let elements ← manyUntil (.symbol '\x7d') element
  pure { name := name, fields := elements.filterMap Sum.getLeft?,
         enums := elements.filterMap Sum.getRight? }

/-- Of the messages of an RPC only the names are given. -/
def rpc : Reader Token RPC := do
  keyword "rpc"
  let name ← wordThat isIdent
  symbol '('
  let input ← wordThat (isFullIdent true)
  symbol ')'
  keyword "returns"
  symbol '('
  let output ← wordThat (isFullIdent true)
  symbol ')'
  symbol '\x7b'
  symbol '\x7d'
  pure { name := name, input := { name := input, fields := [] },
         output := { name := output, fields := [] } }

def service : Reader Token Service := do
  keyword "service"
  let name ← wordThat isIdent
  symbol '\x7b'
  let rpcs ← manyUntil (.symbol '\x7d') rpc
  pure { name := name, rpcs := rpcs }

/-- What is in a file behind its package. -/
inductive Definition where
  | importFile (name : String)
  | message (msg : Message)
  | service (service : Service)

def Definition.getImport? : Definition → Option String
  | .importFile name => some name
  | _ => none

def Definition.getMessage? : Definition → Option Message
  | .message msg => some msg
  | _ => none

def Definition.getService? : Definition → Option Service
  | .service s => some s
  | _ => none

def importFile : Reader Token String := do
  keyword "import"
  let name ← literal
  symbol ';'
  pure name

def definition : Reader Token Definition :=
  Reader.or (do
    let name ← importFile
    pure (.importFile name)) (Reader.or (do
    let msg ← message
    pure (.message msg)) (do
    let service ← service
    pure (.service service)))

def file : Reader Token File := do
  keyword "syntax"
  symbol '='
  expect (.literal "proto3".toList)
  symbol ';'
  keyword "package"
  let package ← wordThat (isFullIdent true)
  symbol ';'
  let definitions ← manyUntil .eof definition
  pure { version := "proto3", package := package,
         imports := definitions.filterMap Definition.getImport?,
         messages := definitions.filterMap Definition.getMessage?,
         services := definitions.filterMap Definition.getService? }

/-- A proto3 file, for the part of the syntax that the writer is about. -/
def read (text : List Char) : Option File := (tokens isWordChar text).bind (Reader.all file)

/-! ## Tokens of what is written -/

section Tokens

/-- The tokens of a text on lines of its own. -/
abbrev Lexes (text : List Char) (ts : List Token) : Prop := Scans isWordChar .between text .between ts

def IsWord (w : List Char) : Prop := w ≠ [] ∧ ∀ c ∈ w, isWordChar c = true

theorem isWord_of_isFullIdent {w : List Char} (h : isFullIdent true w = true) : IsWord w := by
  have hall : ∀ (w : List Char) (isFirst : Bool), isFullIdent isFirst w = true →
      ∀ c ∈ w, isWordChar c = true := by
    intro w
    induction w with
    | nil => exact fun _ _ _ hc => nomatch hc
    | cons c w ih =>
      intro isFirst h
      unfold isFullIdent at h
      split_ifs at h with hfirst hdot
      · obtain ⟨hc, hw⟩ := Bool.and_eq_true_iff.1 h
        refine List.forall_mem_cons.2 ⟨?_, ih false hw⟩
        rcases Bool.or_eq_true_iff.1 hc with hc | hc
        · simp [isWordChar, Char.isAlphanum, hc]
        · simp [isWordChar, of_decide_eq_true hc]
      · exact List.forall_mem_cons.2 ⟨by simp [isWordChar, hdot], ih true h⟩
      · obtain ⟨hc, hw⟩ := Bool.and_eq_true_iff.1 h
        exact List.forall_mem_cons.2 ⟨by simp only [isWordChar, hc, Bool.true_or], ih false hw⟩
  refine ⟨?_, hall w true h⟩
  rintro rfl
  cases h

theorem isFullIdent_of_isIdent {w : List Char} (h : isIdent w = true) : isFullIdent true w = true := by
  have hrest : ∀ w : List Char, (w.all fun c => c.isAlphanum || c = '_') = true →
      isFullIdent false w = true := by
    intro w
    induction w with
    | nil => exact fun _ => rfl
    | cons c w ih =>
      intro h
      rw [List.all_cons, Bool.and_eq_true] at h
      have hdot : c ≠ '.' := by
        rintro rfl
        exact absurd h.1 (by decide)
      rw [isFullIdent, if_neg Bool.false_ne_true, if_neg hdot, h.1, ih h.2]
      rfl
  cases w with
  | nil => cases h
  | cons c w =>
    obtain ⟨hc, hw⟩ := Bool.and_eq_true_iff.1 h
    rw [isFullIdent, if_pos rfl, hc, hrest w hw]
    rfl

theorem isWord_of_isIdent {w : List Char} (h : isIdent w = true) : IsWord w :=
  isWord_of_isFullIdent (isFullIdent_of_isIdent h)

theorem isWord_toDigits (n : Nat) : IsWord (Nat.toDigits 10 n) :=
  ⟨Nat.toDigits_ne_nil, fun c hc => by
    simp [isWordChar, Char.isAlphanum, ScanInt.isDigit_toDigits c hc]⟩

/-- A word between two texts. -/
theorem lexes_around {before w after : List Char} {ts us : List Token} (hbefore : Lexes before ts)
    (hw : IsWord w) (hafter : Scans isWordChar (.word w) after .between us) :
    Lexes (before ++ w ++ after) (ts ++ us) := by
  rw [List.append_assoc]
  exact hbefore.append ((scans_word hw.1 hw.2).append hafter)

/-- A written text with a word in it. -/
theorem lexes_write {before w after : String} {ts us : List Token} (hbefore : Lexes before.toList ts)
    (hw : IsWord w.toList)
    (hafter : Scans isWordChar (.word w.toList) (FileWriter.write after) .between us) :
    Lexes (FileWriter.write (before ++ w ++ after)) (ts ++ us) := by
  rw [FileWriter.write, String.toList_append, String.toList_append, List.append_assoc]
  exact lexes_around hbefore hw hafter

theorem lexes_write_word {w after : String} {us : List Token} (hw : IsWord w.toList)
    (hafter : Scans isWordChar (.word w.toList) (FileWriter.write after) .between us) :
    Lexes (FileWriter.write (w ++ after)) us := by
  rw [FileWriter.write, String.toList_append, List.append_assoc]
  exact (scans_word hw.1 hw.2).append hafter

/-! ### Names -/

/-- The texts of a field are as the syntax has them. -/
structure FieldNamed (f : ProtoMessage.Field) : Prop where
  attr : f.attr = "" ∨ f.attr = "repeated"
  type : isTypeName f.type.toList = true
  name : isIdent f.name.toList = true

structure EnumNamed (e : ProtoMessage.Enum) : Prop where
  name : isIdent e.name.toList = true
  values : ∀ v ∈ e.values, isIdent v.1.toList = true

structure MessageNamed (m : Message) : Prop where
  name : isIdent m.name.toList = true
  fields : ∀ f ∈ m.fields, FieldNamed f
  enums : ∀ e ∈ m.enums, EnumNamed e

structure RPCNamed (r : RPC) : Prop where
  name : isIdent r.name.toList = true
  input : isFullIdent true r.input.name.toList = true
  output : isFullIdent true r.output.name.toList = true

structure ServiceNamed (s : Service) : Prop where
  name : isIdent s.name.toList = true
  rpcs : ∀ r ∈ s.rpcs, RPCNamed r

structure FileNamed (f : File) : Prop where
  version : f.version = "proto3"
  package : isFullIdent true f.package.toList = true
  imports : ∀ i ∈ f.imports, isPlain i.toList = true
  messages : ∀ m ∈ f.messages, MessageNamed m
  services : ∀ s ∈ f.services, ServiceNamed s

/-! ### Lines -/

def fieldTokens (f : ProtoMessage.Field) : List Token :=
  (if f.attr = "" then [] else [.word f.attr.toList]) ++
    [.word f.type.toList, .word f.name.toList, .symbol '=', .word (Nat.toDigits 10 f.number),
      .symbol ';']

def integerTokens : Int → List Token
  | .ofNat n => [.word (Nat.toDigits 10 n)]
  | .negSucc n => [.symbol '-', .word (Nat.toDigits 10 (n + 1))]

def enumValueTokens (v : String × Int) : List Token :=
  .word v.1.toList :: ((if v.2 = -1 then [] else .symbol '=' :: integerTokens v.2) ++ [.symbol ';'])

def enumTokens (e : ProtoMessage.Enum) : List Token :=
  .word "enum".toList :: .word e.name.toList :: .symbol '\x7b' ::
    (e.values.flatMap enumValueTokens ++ [.symbol '\x7d'])

def messageTokens (m : Message) : List Token :=
  .word "message".toList :: .word m.name.toList :: .symbol '\x7b' ::
    (m.fields.flatMap fieldTokens ++ m.enums.flatMap enumTokens ++ [.symbol '\x7d'])

def rpcTokens (r : RPC) : List Token :=
  [.word "rpc".toList, .word r.name.toList, .symbol '(', .word r.input.name.toList, .symbol ')',
    .word "return".toList, .symbol '(', .word r.output.name.toList, .symbol ')', .symbol '\x7b',
    .symbol '\x7d']

def serviceTokens (s : Service) : List Token :=
  .word "service".toList :: .word s.name.toList :: .symbol '\x7b' ::
    (s.rpcs.flatMap rpcTokens ++ [.symbol '\x7d'])

def importTokens (name : String) : List Token :=
  [.word "import".toList, .literal name.toList, .symbol ';']

def fileTokens (f : File) : List Token :=
  [.word "syntax".toList, .symbol '=', .literal f.version.toList, .symbol ';',
    .word "package".toList, .word f.package.toList, .symbol ';'] ++
    (f.imports.flatMap importTokens ++ (f.messages.flatMap messageTokens ++
      f.services.flatMap serviceTokens))

theorem contents_append (texts texts' : List String) : FileWriter.contents (texts ++ texts') =
    FileWriter.contents texts ++ FileWriter.contents texts' :=
  List.flatMap_append

theorem contents_flatMap {α : Type} (l : List α) (written : α → List String) :
    FileWriter.contents (l.flatMap written) = l.flatMap fun x => FileWriter.contents (written x) :=
  List.flatMap_assoc

theorem lexes_field {f : ProtoMessage.Field} (h : FieldNamed f) :
    Lexes (FileWriter.contents (writeMessageField f)) (fieldTokens f) := by
  have htype := (Bool.and_eq_true_iff.1 h.type).1
  have hattr : Lexes (FileWriter.write (f.attr ++ " "))
      (if f.attr = "" then [] else [.word f.attr.toList]) := by
    rcases h.attr with hattr | hattr
    · rw [hattr]
      rfl
    · rw [hattr]
      rfl
  have hnumber : Lexes (FileWriter.write (String.ofList (ScanInt.print f.number)))
      [.word (Nat.toDigits 10 f.number)] := by
    rw [FileWriter.write, String.toList_ofList]
    have hword := isWord_toDigits f.number
    exact (scans_word hword.1 hword.2).append (rfl : Scans isWordChar (.word _) ['\n'] .between [_])
  have htype : Lexes (FileWriter.write (f.type ++ " ")) [.word f.type.toList] :=
    lexes_write_word (isWord_of_isFullIdent htype) rfl
  have hname : Lexes (FileWriter.write (f.name ++ " ")) [.word f.name.toList] :=
    lexes_write_word (isWord_of_isIdent h.name) rfl
  have hequals : Lexes (FileWriter.write " = ") [.symbol '='] := rfl
  have hend : Lexes (FileWriter.contents [";"]) [.symbol ';'] := rfl
  exact hattr.append (htype.append (hname.append (hequals.append (hnumber.append hend))))

theorem lexes_digits (n : Nat) {cs : List Char} {ts : List Token}
    (h : Scans isWordChar (.word (Nat.toDigits 10 n)) cs .between ts) :
    Lexes (Nat.toDigits 10 n ++ cs) ts :=
  (scans_word (isWord_toDigits n).1 (isWord_toDigits n).2).append h

theorem lexes_enumValue {v : String × Int} (h : isIdent v.1.toList = true) :
    Lexes (FileWriter.write (writeEnumValue v)) (enumValueTokens v) := by
  have hword := isWord_of_isIdent h
  unfold writeEnumValue enumValueTokens
  split_ifs with hnumber
  · exact lexes_write_word hword rfl
  · have hname : Lexes (v.1.toList ++ " = ".toList) [.word v.1.toList, .symbol '='] :=
      (scans_word hword.1 hword.2).append rfl
    have hvalue : Lexes (ScanInt.print v.2 ++ ";\n".toList) (integerTokens v.2 ++ [.symbol ';']) := by
      cases v.2 with
      | ofNat n => exact lexes_digits n rfl
      | negSucc n =>
        have hdigits : Lexes (Nat.toDigits 10 (n + 1) ++ ";\n".toList)
            [.word (Nat.toDigits 10 (n + 1)), .symbol ';'] := lexes_digits (n + 1) rfl
        have hsign : feed isWordChar .between '-' = some (.between, [.symbol '-']) := rfl
        exact (Scans.cons hsign hdigits :)
    have hprint : (String.ofList (ScanInt.print v.2)).toList = ScanInt.print v.2 :=
      String.toList_ofList
    rw [FileWriter.write, String.toList_append, String.toList_append, String.toList_append, hprint,
      List.append_assoc, List.append_assoc]
    exact hname.append hvalue

theorem lexes_enum {e : ProtoMessage.Enum} (h : EnumNamed e) :
    Lexes (FileWriter.contents (writeMessageEnum e)) (enumTokens e) := by
  have hname : Lexes (FileWriter.write ("enum " ++ e.name ++ " \x7b"))
      [.word "enum".toList, .word e.name.toList, .symbol '\x7b'] :=
    lexes_write (rfl : Lexes "enum ".toList [.word "enum".toList]) (isWord_of_isIdent h.name) rfl
  have hvalues : Lexes (FileWriter.contents (e.values.map writeEnumValue))
      (e.values.flatMap enumValueTokens) := by
    rw [FileWriter.contents, List.flatMap_map]
    exact Scans.flatMap fun v hv => lexes_enumValue (h.values v hv)
  have hend : Lexes (FileWriter.contents ["\x7d"]) [.symbol '\x7d'] := rfl
  rw [writeMessageEnum, List.cons_append, FileWriter.contents, List.flatMap_cons]
  refine hname.append ?_
  rw [← FileWriter.contents, contents_append]
  exact hvalues.append hend

theorem lexes_message {m : Message} (h : MessageNamed m) :
    Lexes (FileWriter.contents (writeProtoMessage m)) (messageTokens m) := by
  have hname : Lexes (FileWriter.write ("message " ++ m.name ++ " \x7b\n"))
      [.word "message".toList, .word m.name.toList, .symbol '\x7b'] :=
    lexes_write (rfl : Lexes "message ".toList [.word "message".toList]) (isWord_of_isIdent h.name) rfl
  have hfields : Lexes (FileWriter.contents (m.fields.flatMap writeMessageField))
      (m.fields.flatMap fieldTokens) := by
    rw [contents_flatMap]
    exact Scans.flatMap fun f hf => lexes_field (h.fields f hf)
  have henums : Lexes (FileWriter.contents (m.enums.flatMap writeMessageEnum))
      (m.enums.flatMap enumTokens) := by
    rw [contents_flatMap]
    exact Scans.flatMap fun e he => lexes_enum (h.enums e he)
  have hend : Lexes (FileWriter.contents ["\x7d"]) [.symbol '\x7d'] := rfl
  rw [writeProtoMessage, List.cons_append, FileWriter.contents, List.flatMap_cons]
  refine hname.append ?_
  rw [← FileWriter.contents, contents_append, contents_append]
  exact (hfields.append henums).append hend

theorem lexes_rpc {r : RPC} (h : RPCNamed r) :
    Lexes (FileWriter.contents (writeServiceRpc r)) (rpcTokens r) := by
  have hrpc : Lexes (FileWriter.write "rpc ") [.word "rpc".toList] := rfl
  have hname : Lexes (FileWriter.write (r.name ++ " ")) [.word r.name.toList] :=
    lexes_write_word (isWord_of_isIdent h.name) rfl
  have hinput : Lexes (FileWriter.write ("(" ++ r.input.name ++ ") "))
      [.symbol '(', .word r.input.name.toList, .symbol ')'] :=
    lexes_write (rfl : Lexes "(".toList [.symbol '(']) (isWord_of_isFullIdent h.input) rfl
  have houtput : Lexes (FileWriter.write ("return (" ++ r.output.name ++ ") \x7b\x7d"))
      [.word "return".toList, .symbol '(', .word r.output.name.toList, .symbol ')',
        .symbol '\x7b', .symbol '\x7d'] :=
    lexes_write (rfl : Lexes "return (".toList [.word "return".toList, .symbol '('])
      (isWord_of_isFullIdent h.output) rfl
  exact hrpc.append (hname.append (hinput.append (houtput.append .nil)))

theorem lexes_service {s : Service} (h : ServiceNamed s) :
    Lexes (FileWriter.contents (writeProtoService s)) (serviceTokens s) := by
  have hname : Lexes (FileWriter.write ("service " ++ s.name ++ " \x7b"))
      [.word "service".toList, .word s.name.toList, .symbol '\x7b'] :=
    lexes_write (rfl : Lexes "service ".toList [.word "service".toList]) (isWord_of_isIdent h.name) rfl
  have hrpcs : Lexes (FileWriter.contents (s.rpcs.flatMap writeServiceRpc))
      (s.rpcs.flatMap rpcTokens) := by
    rw [contents_flatMap]
    exact Scans.flatMap fun r hr => lexes_rpc (h.rpcs r hr)
  have hend : Lexes (FileWriter.contents ["\x7d"]) [.symbol '\x7d'] := rfl
  rw [writeProtoService, List.cons_append, FileWriter.contents, List.flatMap_cons]
  refine hname.append ?_
  rw [← FileWriter.contents, contents_append]
  exact hrpcs.append hend

theorem lexes_import {name : String} (h : isPlain name.toList = true) :
    Lexes (FileWriter.write (writeProtoImport name)) (importTokens name) := by
  have hplain : ∀ c ∈ name.toList, c ≠ '"' ∧ c ≠ '\\' ∧ c ≠ '\n' := by
    simpa [isPlain, not_or, and_assoc] using h
  have hbefore : Scans isWordChar .between "import \"".toList (.literal [])
      [.word "import".toList] := rfl
  have hafter : Scans isWordChar (.literal name.toList) (FileWriter.write "\";") .between
      [.literal name.toList, .symbol ';'] := rfl
  rw [FileWriter.write, writeProtoImport, String.toList_append, String.toList_append,
    List.append_assoc, List.append_assoc]
  exact hbefore.append ((scans_literal hplain).append hafter)

/-- **The tokens of a written file.** -/
theorem lexes_file {f : File} (h : FileNamed f) :
    Lexes (FileWriter.contents (write f)) (fileTokens f) := by
  have hversion : Lexes (FileWriter.write ("syntax = \"" ++ f.version ++ "\";"))
      [.word "syntax".toList, .symbol '=', .literal f.version.toList, .symbol ';'] := by
    rw [h.version]
    rfl
  have hpackage : Lexes (FileWriter.write ("package " ++ f.package ++ ";"))
      [.word "package".toList, .word f.package.toList, .symbol ';'] :=
    lexes_write (rfl : Lexes "package ".toList [.word "package".toList]) (isWord_of_isFullIdent h.package) rfl
  have himports : Lexes (FileWriter.contents (f.imports.map writeProtoImport))
      (f.imports.flatMap importTokens) := by
    rw [FileWriter.contents, List.flatMap_map]
    exact Scans.flatMap fun i hi => lexes_import (h.imports i hi)
  have hmessages : Lexes (FileWriter.contents (f.messages.flatMap writeProtoMessage))
      (f.messages.flatMap messageTokens) := by
    rw [contents_flatMap]
    exact Scans.flatMap fun m hm => lexes_message (h.messages m hm)
  have hservices : Lexes (FileWriter.contents (f.services.flatMap writeProtoService))
      (f.services.flatMap serviceTokens) := by
    rw [contents_flatMap]
    exact Scans.flatMap fun s hs => lexes_service (h.services s hs)
  have hrest := himports.append (hmessages.append hservices)
  rw [← contents_append, ← contents_append] at hrest
  exact hversion.append (hpackage.append hrest)

end Tokens

/-! ## What is read back -/

section Read

theorem on_wordThat {p : List Char → Bool} {s : String} (h : p s.toList = true) :
    On (wordThat p) [.word s.toList] (some s) :=
  .token_some (by simp [h])

theorem on_wordThat_none {p : List Char → Bool} {w : List Char} (h : p w = false) :
    On (wordThat p) [.word w] none :=
  .token_none (by simp [h])

theorem on_number (n : Nat) : On number [.word (Nat.toDigits 10 n)] (some n) := by
  have hvalue : Nat.ofDigitChars 10 (Nat.toDigits 10 n) 0 = n :=
    Nat.ofDigitChars_toDigits (by decide) (by decide)
  exact .token_some (by simp [hvalue])

theorem on_integer (n : Int) : On integer (integerTokens n) (some n) := by
  cases n with
  | ofNat n =>
    exact On.or (r := none) (.fail_cons (.expect_ne Token.noConfusion)) ((on_number n).map _)
  | negSucc n => exact .or_left (.cons .expect ((on_number (n + 1)).map _))

theorem on_fieldAfter {f : ProtoMessage.Field} (h : FieldNamed f) :
    On (fieldAfter f.attr) [.word f.type.toList, .word f.name.toList, .symbol '=',
      .word (Nat.toDigits 10 f.number), .symbol ';'] (some f) :=
  .cons (on_wordThat h.type) (.cons (on_wordThat h.name) (.cons .expect
    (.cons (on_number f.number) (.cons .expect (.pure f)))))

theorem ne_keyword {w : List Char} (h : isTypeName w = true) {s : String} (hs : s ∈ keywords) :
    w ≠ s.toList := by
  rintro rfl
  have hnot := (Bool.and_eq_true_iff.1 h).2
  rw [List.contains_iff_mem.2 (List.mem_map_of_mem hs)] at hnot
  cases hnot

theorem on_field {f : ProtoMessage.Field} (h : FieldNamed f) :
    On field (fieldTokens f) (some f) := by
  have hafter := on_fieldAfter h
  unfold fieldTokens
  rcases h.attr with hattr | hattr
  · rw [hattr] at hafter
    rw [if_pos hattr]
    refine On.or (r := none) (.fail_cons (.expect_ne fun heq => ?_)) hafter
    exact ne_keyword h.type (by decide) (Token.word.inj heq)
  · rw [hattr] at hafter
    rw [if_neg (by rw [hattr]; decide), hattr]
    exact .or_left (.cons .expect hafter)

/-- A field is no enum. -/
theorem on_enum_field {f : ProtoMessage.Field} (h : FieldNamed f) :
    On enum (fieldTokens f) none := by
  unfold fieldTokens
  rcases h.attr with hattr | hattr
  · rw [if_pos hattr]
    refine .fail_cons (.expect_ne fun heq => ?_)
    exact ne_keyword h.type (by decide) (Token.word.inj heq)
  · rw [if_neg (by rw [hattr]; decide), hattr]
    exact .fail_cons (.expect_ne (by decide))

/-- All values have a number. -/
def isNumbered (e : ProtoMessage.Enum) : Bool := e.values.all fun v => v.2 ≠ -1

theorem on_enumValue {v : String × Int} (h : isIdent v.1.toList = true) :
    On enumValue (enumValueTokens v) (Option.guard (fun v => v.2 ≠ -1) v) := by
  unfold enumValueTokens Option.guard
  by_cases hv : v.2 = -1
  · rw [if_pos hv, if_neg (by simp [hv])]
    exact .cons (on_wordThat h) (.fail_cons (.expect_ne (by decide)))
  · rw [if_neg hv, if_pos (by simp [hv])]
    exact .cons (on_wordThat h) (.cons .expect ((on_integer v.2).seq (.cons .expect (.pure v))))

theorem on_enum {e : ProtoMessage.Enum} (h : EnumNamed e) :
    On enum (enumTokens e) (Option.guard isNumbered e) := by
  have hvalues : On (manyUntil (.symbol '\x7d') enumValue)
      (e.values.flatMap enumValueTokens ++ [.symbol '\x7d'])
      (Option.guard (fun values => values.all fun v => decide (v.2 ≠ -1)) e.values) :=
    mapM_guard (fun v : String × Int => decide (v.2 ≠ -1)) e.values ▸
      On.manyUntil (fun v hv => on_enumValue (h.values v hv)) fun v _ =>
        ⟨_, _, rfl, Token.noConfusion⟩
  have hnumbered : Option.guard isNumbered e =
      (Option.guard (fun values => values.all fun v => decide (v.2 ≠ -1)) e.values).map
        fun values => { name := e.name, values := values } := by
    unfold Option.guard isNumbered
    split_ifs <;> rfl
  rw [hnumbered]
  exact .cons .expect (.cons (on_wordThat h.name) (.cons .expect (hvalues.map _)))

/-- An enum is no field. -/
theorem on_field_enum (e : ProtoMessage.Enum) : On field (enumTokens e) none :=
  On.or (r := none) (.fail_cons (.expect_ne (by decide))) (.fail_cons (on_wordThat_none (by decide)))

def elementTokens : ProtoMessage.Field ⊕ ProtoMessage.Enum → List Token :=
  Sum.elim fieldTokens enumTokens

def isElementNumbered : ProtoMessage.Field ⊕ ProtoMessage.Enum → Bool :=
  Sum.elim (fun _ => true) isNumbered

theorem on_element {x : ProtoMessage.Field ⊕ ProtoMessage.Enum}
    (h : Sum.elim FieldNamed EnumNamed x) :
    On element (elementTokens x) (Option.guard isElementNumbered x) := by
  cases x with
  | inl f => exact On.or ((on_enum_field h).map _) ((on_field h).map _)
  | inr e =>
    have hon := On.or ((on_enum h).map Sum.inr) ((on_field_enum e).map Sum.inl)
    have hguard : (Option.guard isNumbered e).map Sum.inr = Option.guard isElementNumbered (.inr e) :=
      map_guard rfl
    rw [Option.map_none, Option.or_none, hguard] at hon
    exact hon

def elements (m : Message) : List (ProtoMessage.Field ⊕ ProtoMessage.Enum) :=
  m.fields.map .inl ++ m.enums.map .inr

theorem flatMap_elementTokens (m : Message) : (elements m).flatMap elementTokens =
    m.fields.flatMap fieldTokens ++ m.enums.flatMap enumTokens := by
  rw [elements, List.flatMap_append, List.flatMap_map, List.flatMap_map]
  rfl

theorem elementTokens_cons (x : ProtoMessage.Field ⊕ ProtoMessage.Enum) :
    ∃ t us, elementTokens x = t :: us ∧ t ≠ .symbol '\x7d' := by
  cases x with
  | inl f =>
    show ∃ t us, fieldTokens f = t :: us ∧ t ≠ .symbol '\x7d'
    unfold fieldTokens
    split_ifs
    · exact ⟨_, _, rfl, Token.noConfusion⟩
    · exact ⟨_, _, rfl, Token.noConfusion⟩
  | inr e => exact ⟨_, _, rfl, Token.noConfusion⟩

def isMessageNumbered (m : Message) : Bool := m.enums.all isNumbered

theorem on_message {m : Message} (h : MessageNamed m) :
    On message (messageTokens m) (Option.guard isMessageNumbered m) := by
  have hnamed : ∀ x ∈ elements m, Sum.elim FieldNamed EnumNamed x := by
    intro x hx
    rcases List.mem_append.1 hx with hx | hx
    · obtain ⟨f, hf, rfl⟩ := List.mem_map.1 hx
      exact h.fields f hf
    · obtain ⟨e, he, rfl⟩ := List.mem_map.1 hx
      exact h.enums e he
  have helements : On (manyUntil (.symbol '\x7d') element)
      ((elements m).flatMap elementTokens ++ [.symbol '\x7d'])
      (Option.guard (fun xs => xs.all isElementNumbered) (elements m)) :=
    mapM_guard isElementNumbered (elements m) ▸
      On.manyUntil (fun x hx => on_element (hnamed x hx)) fun x _ => elementTokens_cons x
  have hnumbered : Option.guard isMessageNumbered m =
      (Option.guard (fun xs => xs.all isElementNumbered) (elements m)).map fun xs =>
        { name := m.name, fields := xs.filterMap Sum.getLeft?,
          enums := xs.filterMap Sum.getRight? } := by
    have hall : (elements m).all isElementNumbered = isMessageNumbered m := by
      simp [elements, isElementNumbered, isMessageNumbered, Function.comp_def]
    have hfields : (elements m).filterMap Sum.getLeft? = m.fields := by
      simp [elements, List.filterMap_map, Function.comp_def]
    have henums : (elements m).filterMap Sum.getRight? = m.enums := by
      simp [elements, List.filterMap_map, Function.comp_def]
    simp only [Option.guard, hall]
    split_ifs
    · rw [Option.map_some, hfields, henums]
    · rfl
  rw [flatMap_elementTokens] at helements
  rw [hnumbered]
  exact .cons .expect (.cons (on_wordThat h.name) (.cons .expect (helements.map _)))

/-- What the writer makes of an RPC is not in the syntax. -/
theorem on_rpc {r : RPC} (h : RPCNamed r) : On rpc (rpcTokens r) none :=
  .cons .expect (.cons (on_wordThat h.name) (.cons .expect (.cons (on_wordThat h.input)
    (.cons .expect (.fail_cons (.expect_ne (by decide)))))))

theorem on_service {s : Service} (h : ServiceNamed s) :
    On service (serviceTokens s) (Option.guard (fun s => s.rpcs.isEmpty) s) := by
  have hrpcs : On (manyUntil (.symbol '\x7d') rpc)
      (s.rpcs.flatMap rpcTokens ++ [.symbol '\x7d'])
      (Option.guard (fun rpcs => rpcs.all fun _ => false) s.rpcs) :=
    mapM_guard (fun _ => false) s.rpcs ▸
      On.manyUntil (fun r hr => on_rpc (h.rpcs r hr)) fun r _ => ⟨_, _, rfl, Token.noConfusion⟩
  have hempty : Option.guard (fun s : Service => s.rpcs.isEmpty) s =
      (Option.guard (fun rpcs => rpcs.all fun _ => false) s.rpcs).map fun rpcs =>
        { name := s.name, rpcs := rpcs } := by
    obtain ⟨name, rpcs⟩ := s
    cases rpcs with
    | nil => rfl
    | cons r rpcs => rfl
  rw [hempty]
  exact .cons .expect (.cons (on_wordThat h.name) (.cons .expect (hrpcs.map _)))

theorem on_importFile {name : String} (h : isPlain name.toList = true) :
    On importFile (importTokens name) (some name) :=
  .cons .expect (.cons (.token_some (by simp [h])) (.cons .expect (.pure name)))

def definitionTokens : Definition → List Token
  | .importFile name => importTokens name
  | .message msg => messageTokens msg
  | .service s => serviceTokens s

def isDefinitionReadable : Definition → Bool
  | .importFile _ => true
  | .message msg => isMessageNumbered msg
  | .service s => s.rpcs.isEmpty

def DefinitionNamed : Definition → Prop
  | .importFile name => isPlain name.toList = true
  | .message msg => MessageNamed msg
  | .service s => ServiceNamed s

theorem on_keyword_none {α : Type} {s s' : String} {us : List Token} {p : Reader Token α}
    (h : s' ≠ s) : On (do keyword s; p) (.word s'.toList :: us) none :=
  .fail_cons (.expect_ne fun heq => h (String.toList_inj.1 (Token.word.inj heq)))

theorem on_definition {d : Definition} (h : DefinitionNamed d) :
    On definition (definitionTokens d) (Option.guard isDefinitionReadable d) := by
  cases d with
  | importFile name => exact .or_left ((on_importFile h).map _)
  | message msg =>
    have himport : On importFile (messageTokens msg) none := on_keyword_none (by decide)
    have hservice : On service (messageTokens msg) none := on_keyword_none (by decide)
    have hon := On.or (himport.map Definition.importFile)
      (On.or ((on_message h).map .message) (hservice.map .service))
    have hguard : (Option.guard isMessageNumbered msg).map Definition.message =
        Option.guard isDefinitionReadable (.message msg) := map_guard rfl
    rw [Option.map_none, Option.map_none, Option.or_none, Option.none_or, hguard] at hon
    exact hon
  | service s =>
    have himport : On importFile (serviceTokens s) none := on_keyword_none (by decide)
    have hmessage : On message (serviceTokens s) none := on_keyword_none (by decide)
    have hon := On.or (himport.map Definition.importFile)
      (On.or (hmessage.map .message) ((on_service h).map .service))
    have hguard : (Option.guard (fun s => s.rpcs.isEmpty) s).map Definition.service =
        Option.guard isDefinitionReadable (.service s) := map_guard rfl
    rw [Option.map_none, Option.map_none, Option.none_or, Option.none_or, hguard] at hon
    exact hon

def definitions (f : File) : List Definition :=
  f.imports.map .importFile ++ (f.messages.map .message ++ f.services.map .service)

theorem flatMap_definitionTokens (f : File) : (definitions f).flatMap definitionTokens =
    f.imports.flatMap importTokens ++
      (f.messages.flatMap messageTokens ++ f.services.flatMap serviceTokens) := by
  rw [definitions, List.flatMap_append, List.flatMap_append, List.flatMap_map, List.flatMap_map,
    List.flatMap_map]
  rfl

/-- No RPC, and no enum value without a number. -/
def isReadable (f : File) : Bool :=
  f.messages.all isMessageNumbered && f.services.all fun s => s.rpcs.isEmpty

theorem on_file {f : File} (h : FileNamed f) :
    On file (fileTokens f ++ [.eof]) (Option.guard isReadable f) := by
  have hnamed : ∀ d ∈ definitions f, DefinitionNamed d := by
    intro d hd
    rcases List.mem_append.1 hd with hd | hd
    · obtain ⟨i, hi, rfl⟩ := List.mem_map.1 hd
      exact h.imports i hi
    rcases List.mem_append.1 hd with hd | hd
    · obtain ⟨m, hm, rfl⟩ := List.mem_map.1 hd
      exact h.messages m hm
    · obtain ⟨s, hs, rfl⟩ := List.mem_map.1 hd
      exact h.services s hs
  have hstop : ∀ d ∈ definitions f, ∃ t us, definitionTokens d = t :: us ∧ t ≠ .eof := by
    rintro (name | msg | s) -
    · exact ⟨_, _, rfl, Token.noConfusion⟩
    · exact ⟨_, _, rfl, Token.noConfusion⟩
    · exact ⟨_, _, rfl, Token.noConfusion⟩
  have hdefinitions : On (manyUntil .eof definition)
      ((definitions f).flatMap definitionTokens ++ [.eof])
      (Option.guard (fun ds => ds.all isDefinitionReadable) (definitions f)) :=
    mapM_guard isDefinitionReadable (definitions f) ▸
      On.manyUntil (fun d hd => on_definition (hnamed d hd)) hstop
  have hreadable : Option.guard isReadable f =
      (Option.guard (fun ds => ds.all isDefinitionReadable) (definitions f)).map fun ds =>
        { version := "proto3", package := f.package,
          imports := ds.filterMap Definition.getImport?,
          messages := ds.filterMap Definition.getMessage?,
          services := ds.filterMap Definition.getService? } := by
    have hall : (definitions f).all isDefinitionReadable = isReadable f := by
      simp [definitions, isDefinitionReadable, isReadable, Function.comp_def]
    have himports : (definitions f).filterMap Definition.getImport? = f.imports := by
      simp [definitions, List.filterMap_map, Function.comp_def, Definition.getImport?]
    have hmessages : (definitions f).filterMap Definition.getMessage? = f.messages := by
      simp [definitions, List.filterMap_map, Function.comp_def, Definition.getMessage?]
    have hservices : (definitions f).filterMap Definition.getService? = f.services := by
      simp [definitions, List.filterMap_map, Function.comp_def, Definition.getService?]
    simp only [Option.guard, hall]
    split_ifs
    · rw [Option.map_some, himports, hmessages, hservices, ← h.version]
    · rfl
  have htokens : fileTokens f ++ [.eof] =
      [.word "syntax".toList, .symbol '=', .literal "proto3".toList, .symbol ';',
        .word "package".toList, .word f.package.toList, .symbol ';'] ++
        ((definitions f).flatMap definitionTokens ++ [.eof]) := by
    rw [fileTokens, h.version, flatMap_definitionTokens, List.append_assoc]
  rw [htokens, hreadable]
  exact .cons .expect (.cons .expect (.cons .expect (.cons .expect (.cons .expect
    (.cons (on_wordThat h.package) (.cons .expect (hdefinitions.map _)))))))

/-- A file whose names are right is read back, or not read. -/
theorem read_contents {f : File} (h : FileNamed f) :
    read (FileWriter.contents (write f)) = Option.guard isReadable f := by
  rw [read, tokens_eq (lexes_file h), Option.bind_some]
  exact (on_file h).all

end Read

/-! ## What is read is well named -/

section Ensures

theorem ensures_wordThat {p : List Char → Bool} :
    Ensures (wordThat p) fun s => p s.toList = true := by
  refine .token fun t s hs => ?_
  cases t with
  | word w =>
    obtain ⟨hp, heq⟩ := Option.ite_none_right_eq_some.1 hs
    rw [← Option.some.inj heq, String.toList_ofList]
    exact hp
  | _ => cases hs

theorem ensures_literal : Ensures literal fun s => isPlain s.toList = true := by
  refine .token fun t s hs => ?_
  cases t with
  | literal w =>
    obtain ⟨hp, heq⟩ := Option.ite_none_right_eq_some.1 hs
    rw [← Option.some.inj heq, String.toList_ofList]
    exact hp
  | _ => cases hs

theorem ensures_fieldAfter {label : String} (h : label = "" ∨ label = "repeated") :
    Ensures (fieldAfter label) FieldNamed :=
  ensures_wordThat.bind fun _ htype => ensures_wordThat.bind fun _ hname => .skip fun _ => .skip
    fun _ => .skip fun _ => .pure ⟨h, htype, hname⟩

theorem ensures_field : Ensures field FieldNamed :=
  .or (.skip fun _ => ensures_fieldAfter (.inr rfl)) (ensures_fieldAfter (.inl rfl))

theorem ensures_enumValue : Ensures enumValue fun v => isIdent v.1.toList = true :=
  ensures_wordThat.bind fun _ hname => .skip fun _ => .skip fun _ => .skip fun _ => .pure hname

theorem ensures_enum : Ensures enum EnumNamed :=
  .skip fun _ => ensures_wordThat.bind fun _ hname => .skip fun _ =>
    (Ensures.manyUntil ensures_enumValue).bind fun _ hvalues => .pure ⟨hname, hvalues⟩

theorem ensures_element : Ensures element (Sum.elim FieldNamed EnumNamed) :=
  .or (ensures_enum.bind fun _ he => .pure he) (ensures_field.bind fun _ hf => .pure hf)

theorem ensures_message : Ensures message MessageNamed := by
  refine .skip fun _ => ensures_wordThat.bind fun _ hname => .skip fun _ =>
    (Ensures.manyUntil ensures_element).bind fun xs hxs => .pure ⟨hname, fun f hf => ?_, fun e he => ?_⟩
  · obtain ⟨x, hx, hf⟩ := List.mem_filterMap.1 hf
    obtain rfl := Sum.getLeft?_eq_some_iff.1 hf
    exact hxs _ hx
  · obtain ⟨x, hx, he⟩ := List.mem_filterMap.1 he
    obtain rfl := Sum.getRight?_eq_some_iff.1 he
    exact hxs _ hx

theorem ensures_rpc : Ensures rpc RPCNamed :=
  .skip fun _ => ensures_wordThat.bind fun _ hname => .skip fun _ => ensures_wordThat.bind
    fun _ hinput => .skip fun _ => .skip fun _ => .skip fun _ => ensures_wordThat.bind
      fun _ houtput => .skip fun _ => .skip fun _ => .skip fun _ => .pure ⟨hname, hinput, houtput⟩

theorem ensures_service : Ensures service ServiceNamed :=
  .skip fun _ => ensures_wordThat.bind fun _ hname => .skip fun _ =>
    (Ensures.manyUntil ensures_rpc).bind fun _ hrpcs => .pure ⟨hname, hrpcs⟩

theorem ensures_importFile : Ensures importFile fun s => isPlain s.toList = true :=
  .skip fun _ => ensures_literal.bind fun _ hname => .skip fun _ => .pure hname

theorem ensures_definition : Ensures definition DefinitionNamed :=
  .or (ensures_importFile.bind fun _ h => .pure h)
    (.or (ensures_message.bind fun _ h => .pure h) (ensures_service.bind fun _ h => .pure h))

theorem ensures_file : Ensures file FileNamed := by
  refine .skip fun _ => .skip fun _ => .skip fun _ => .skip fun _ => .skip fun _ =>
    ensures_wordThat.bind fun _ hpackage => .skip fun _ =>
      (Ensures.manyUntil ensures_definition).bind fun ds hds =>
        .pure ⟨rfl, hpackage, fun i hi => ?_, fun m hm => ?_, fun s hs => ?_⟩
  · obtain ⟨d, hd, hi⟩ := List.mem_filterMap.1 hi
    cases d with
    | importFile name => exact Option.some.inj hi ▸ hds _ hd
    | _ => cases hi
  · obtain ⟨d, hd, hm⟩ := List.mem_filterMap.1 hm
    cases d with
    | message msg => exact Option.some.inj hm ▸ hds _ hd
    | _ => cases hm
  · obtain ⟨d, hd, hs⟩ := List.mem_filterMap.1 hs
    cases d with
    | service s' => exact Option.some.inj hs ▸ hds _ hd
    | _ => cases hs

theorem fileNamed_of_read {text : List Char} {f : File} (h : read text = some f) : FileNamed f := by
  obtain ⟨ts, -, hts⟩ := Option.bind_eq_some_iff.1 h
  exact ensures_file.all hts

end Ensures

/-! ## Top theorem -/

/-- What the writer can put into proto3. -/
structure Grammatical (f : File) : Prop extends FileNamed f where
  numbered : ∀ m ∈ f.messages, ∀ e ∈ m.enums, ∀ v ∈ e.values, v.2 ≠ -1
  noRPCs : ∀ s ∈ f.services, s.rpcs = []

theorem grammatical_iff {f : File} : Grammatical f ↔ FileNamed f ∧ isReadable f = true := by
  have hreadable : isReadable f = true ↔
      (∀ m ∈ f.messages, ∀ e ∈ m.enums, ∀ v ∈ e.values, v.2 ≠ -1) ∧
        ∀ s ∈ f.services, s.rpcs = [] := by
    simp [isReadable, isMessageNumbered, isNumbered]
  rw [hreadable]
  exact ⟨fun h => ⟨h.toFileNamed, h.numbered, h.noRPCs⟩, fun h => ⟨h.1, h.2.1, h.2.2⟩⟩

theorem read_written_iff {f : File} : read (FileWriter.contents (write f)) = some f ↔
    FileNamed f ∧ isReadable f = true := by
  constructor
  · intro h
    have hnamed := fileNamed_of_read h
    rw [read_contents hnamed] at h
    exact ⟨hnamed, (Option.guard_eq_some_iff.1 h).2⟩
  · rintro ⟨hnamed, hreadable⟩
    rw [read_contents hnamed]
    exact Option.guard_eq_some_iff.2 ⟨rfl, hreadable⟩

/-- **A written file is read back exactly if it is grammatical.** -/
theorem read_contents_iff (f : File) :
    read (FileWriter.contents (write f)) = some f ↔ Grammatical f :=
  read_written_iff.trans grammatical_iff.symm

end ProtoSyntax

end Vazgen
