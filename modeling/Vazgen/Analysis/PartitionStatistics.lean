import Vazgen.Analysis.CallGraphWeights
import Vazgen.Lib.Json

/-!
# Statistics of the partitions

`PartitionStatistics` reports on both partitions in one JSON document, under keys of three parts.  An
entry is a key with its value, and `report` writes the entries one after the other.  A quotient by 0
is no number, and written as `null`.
-/

namespace Vazgen

variable {F G V N R J Text : Type}

/-! ## The writer -/

/-- `JsonWriter::write`; the keys of all entries have three parts. -/
def JsonWriter.write (lib : JsonLibrary J Text R) (root : J) (k : List String) (value : J) :
    Option J :=
  match k with
  | [] => some root
  | k₀ :: k₁ :: k₂ :: _ => lib.setPath root [k₀, k₁, k₂] value
  | _ => none

namespace PartitionStatistics

/-! ## Numbers over the call graph -/

section Numbers

variable [DecidableEq F] [Ring R] [LinearOrder R] (graph : CallGraph F R) (partition : Partition F G)

/-- The edges that cross the border of the partition: the in-edges with a source outside of it, and
the out-edges with a sink outside of it. -/
def borderEdges (f : F) : List (Edge F R) :=
  match graph.getFunctionNode f with
  | none => []
  | some node =>
    (node.inEdges.filter fun edge => edge.getSource ∉ partition.partition) ++
      node.outEdges.filter fun edge => edge.getSink ∉ partition.partition

def callNum (edge : Edge F R) : R := (edge.getWeight.getFactor .callNum).getValue

def argNum (edge : Edge F R) : R := (edge.getWeight.getFactor .argNum).getValue

def getCtxSwitchesInFunction (f : F) : R :=
  (borderEdges graph partition f).foldl (fun ctxSwitchN edge =>
    NumberType.safeSum ctxSwitchN (callNum edge)) 0

def getArgNumPassedFromFunction (f : F) : R :=
  (borderEdges graph partition f).foldl (fun argNumber edge =>
    NumberType.safeSum argNumber (NumberType.safeMult (callNum edge) (argNum edge))) 0

variable (order : IterationOrder F)

/-- The sum of `reportNumOfContextSwitches`. -/
def numOfContextSwitches : R :=
  (order.list partition.partition).foldl (fun ctxSwitchN f =>
    NumberType.safeSum ctxSwitchN (getCtxSwitchesInFunction graph partition f)) 0

/-- The sum of `repotArgsPassedAccrossPartition`. -/
def argsPassedAccrossPartition : R :=
  (order.list partition.partition).foldl (fun argNumber f =>
    NumberType.safeSum argNumber (getArgNumPassedFromFunction graph partition f)) 0

/-- `tcbSize` of `reportSizeOfTCB`. -/
def sizeOfTCB (M : Module F G V) : Nat :=
  (order.list partition.partition).foldl (fun tcbSize f =>
    if graph.hasFunctionNode f then tcbSize + M.functionSize f else tcbSize) 0

end Numbers

/-- `m_moduleSize`, an `unsigned`. -/
def moduleSize (M : Module F G V) : Nat :=
  M.functions.foldl (fun size f =>
    if M.isDeclaration f then size else (size + M.functionSize f) % 2 ^ 32) 0

/-! ## The report -/

section Report

variable [DecidableEq F] [Field R] [LinearOrder R] (lib : JsonLibrary J Text R) (M : Module F G V)
  (order : IterationOrder F) (graph : CallGraph F R)

/-- `part * 100.0 / whole`, a `double`; `none` when it is NaN or infinite. -/
def percentage (part whole : Nat) : Option R :=
  if whole = 0 then none else some ((part : R) * 100 / (whole : R))

/-- The three entries about a set of functions, given by the texts of its elements. -/
def functionEntries (partitionName functionsKey sizeKey percentName percentKey : String)
    (texts : List String) : List (List String × J) :=
  [(["partition", partitionName, functionsKey], lib.ofStrings texts),
    (["partition", partitionName, sizeKey], lib.ofUnsigned (texts.length % 2 ^ 32)),
    (["partition", percentName, percentKey],
      lib.ofNumber? (percentage texts.length M.functions.length))]

def reportPartitionFunctions (name : String) (partition : Partition F G) :
    List (List String × J) :=
  functionEntries lib M name "partition_functions" "partition_size" name "partition%"
    ((order.list partition.partition).map M.getName)

def reportSecurityRelatedFunctions (name : String) (partition : Partition F G) :
    List (List String × J) :=
  functionEntries lib M name "security_related_functions" "security_related_functions_size" name
    "security_related%" ((order.list partition.relatedFunctions.keys).map fun f =>
      M.getName f ++ "  " ++ toString ((partition.relatedFunctions.lookup f).getD 0))

/-- The percentage is written under the name of the member instead of its value. -/
def reportInInterface (name : String) (partition : Partition F G) : List (List String × J) :=
  functionEntries lib M name "in_interface" "in_interface_size" "m_partitionName" "in_interface%"
    ((order.list partition.inInterface).map M.getName)

def reportNumOfContextSwitches (name : String) (partition : Partition F G) :
    List (List String × J) :=
  [(["partition", name, "context_switches"],
    lib.ofNumber (numOfContextSwitches graph partition order))]

def reportSizeOfTCB (name : String) (partition : Partition F G) : List (List String × J) :=
  let tcbSize := sizeOfTCB graph partition order M
  [(["partition", name, "TCB"], lib.ofNumber (tcbSize : R)),
    (["partition", name, "TCB%"], lib.ofNumber? (percentage tcbSize (moduleSize M)))]

def repotArgsPassedAccrossPartition (name : String) (partition : Partition F G) :
    List (List String × J) :=
  [(["partition", name, "args_passed"],
    lib.ofNumber (argsPassedAccrossPartition graph partition order))]

/-- `report(const Partition&)`, under the name of `m_partitionName`. -/
def reportPartition (name : String) (partition : Partition F G) : List (List String × J) :=
  reportPartitionFunctions lib M order name partition ++
    reportSecurityRelatedFunctions lib M order name partition ++
    reportInInterface lib M order name partition ++
    reportNumOfContextSwitches lib order graph name partition ++
    reportSizeOfTCB lib M order graph name partition ++
    repotArgsPassedAccrossPartition lib order graph name partition

/-- `report()`: the text that is written; `none` if an entry cannot be written. -/
def report (securePartition insecurePartition : Partition F G) : Option Text := do
  let root ← (reportPartition lib M order graph "secure_partition" securePartition).foldlM
    (fun root entry => JsonWriter.write lib root entry.1 entry.2) lib.null
  let root ← (reportPartition lib M order graph "insecure_partition" insecurePartition).foldlM
    (fun root entry => JsonWriter.write lib root entry.1 entry.2) root
  some (lib.dump root)

end Report

/-! ## What the document says -/

section Document

variable {lib : JsonLibrary J Text R} {root : J}

theorem exists_write {k : List String} (hk : k.length = 3) (hroot : lib.Writable 3 root) (value : J) :
    ∃ root', JsonWriter.write lib root k value = some root' ∧ lib.Writable 3 root' ∧
      ∀ other : List String, other.length = 3 →
        lib.getPath root' other = if other = k then some value else lib.getPath root other := by
  match k, hk with
  | [k₀, k₁, k₂], _ => exact JsonLibrary.exists_setPath [k₀, k₁, k₂] value hroot

/-- Entries with distinct keys stand in the document afterwards, and leave the rest of it alone. -/
theorem exists_writeEntries {entries : List (List String × J)}
    (hlength : ∀ entry ∈ entries, entry.1.length = 3) (hnodup : (entries.map (·.1)).Nodup)
    (hroot : lib.Writable 3 root) :
    ∃ root', entries.foldlM (fun root entry => JsonWriter.write lib root entry.1 entry.2) root =
        some root' ∧ lib.Writable 3 root' ∧
      (∀ entry ∈ entries, lib.getPath root' entry.1 = some entry.2) ∧
      ∀ k : List String, k.length = 3 → k ∉ entries.map (·.1) →
        lib.getPath root' k = lib.getPath root k := by
  induction entries generalizing root with
  | nil => exact ⟨root, rfl, hroot, List.forall_mem_nil _, fun k _ _ => rfl⟩
  | cons entry entries ih =>
    obtain ⟨hentry, hlength⟩ := List.forall_mem_cons.1 hlength
    obtain ⟨hnew, hnodup⟩ := List.nodup_cons.1 hnodup
    obtain ⟨root₁, hwrite, hroot₁, hpath⟩ := exists_write hentry hroot entry.2
    obtain ⟨root', hloop, hroot', hentries, hother⟩ := ih hlength hnodup hroot₁
    refine ⟨root', ?_, hroot', List.forall_mem_cons.2 ⟨?_, hentries⟩, fun k hk hmem => ?_⟩
    · rw [List.foldlM_cons, hwrite]
      exact hloop
    · rw [hother entry.1 hentry hnew, hpath entry.1 hentry, if_pos rfl]
    · rw [List.map_cons, List.mem_cons, not_or] at hmem
      rw [hother k hk hmem.2, hpath k hk, if_neg hmem.1]

variable (lib) [DecidableEq F] [Field R] [LinearOrder R] (M : Module F G V)
  (order : IterationOrder F) (graph : CallGraph F R)

/-- The second and third parts of the keys of one partition. -/
def reportKeys (name : String) : List (String × String) :=
  [(name, "partition_functions"), (name, "partition_size"), (name, "partition%"),
    (name, "security_related_functions"), (name, "security_related_functions_size"),
    (name, "security_related%"), (name, "in_interface"), (name, "in_interface_size"),
    ("m_partitionName", "in_interface%"), (name, "context_switches"), (name, "TCB"), (name, "TCB%"),
    (name, "args_passed")]

theorem keys_reportPartition (name : String) (partition : Partition F G) :
    (reportPartition lib M order graph name partition).map (·.1) =
      (reportKeys name).map fun key => ["partition", key.1, key.2] := rfl

theorem exists_writePartition (name : String)
    (hname : name ∈ ["secure_partition", "insecure_partition"]) (partition : Partition F G)
    (hroot : lib.Writable 3 root) :
    ∃ root', (reportPartition lib M order graph name partition).foldlM
        (fun root entry => JsonWriter.write lib root entry.1 entry.2) root = some root' ∧
      lib.Writable 3 root' ∧
      (∀ entry ∈ reportPartition lib M order graph name partition,
        lib.getPath root' entry.1 = some entry.2) ∧
      ∀ k ∉ reportKeys name, lib.getPath root' ["partition", k.1, k.2] =
        lib.getPath root ["partition", k.1, k.2] := by
  have hkeys := keys_reportPartition lib M order graph name partition
  have hnodup : (reportKeys name).Nodup := by
    simp only [List.mem_cons, List.not_mem_nil, or_false] at hname
    rcases hname with rfl | rfl
    · decide
    · decide
  have hlength : ∀ entry ∈ reportPartition lib M order graph name partition,
      entry.1.length = 3 := by
    intro entry hentry
    obtain ⟨key, -, hkey⟩ := List.mem_map.1 (hkeys ▸ List.mem_map_of_mem hentry)
    rw [← hkey]
    rfl
  have hdistinct : ((reportPartition lib M order graph name partition).map (·.1)).Nodup := by
    rw [hkeys]
    exact hnodup.map fun a b hab => by simpa [Prod.ext_iff] using hab
  obtain ⟨root', hloop, hroot', hentries, hother⟩ := exists_writeEntries hlength hdistinct hroot
  refine ⟨root', hloop, hroot', hentries, fun k hk => hother _ rfl fun hmem => hk ?_⟩
  obtain ⟨key, hkey, heq⟩ := List.mem_map.1 (hkeys ▸ hmem)
  have hkey' : key = k := by simpa [Prod.ext_iff] using heq
  exact hkey' ▸ hkey

/-- **The report is written**, and holds the names of both in-interfaces. -/
theorem exists_report (securePartition insecurePartition : Partition F G) :
    ∃ text root, report lib M order graph securePartition insecurePartition = some text ∧
      lib.parse text = some root ∧
      lib.getPath root ["partition", "secure_partition", "in_interface"] =
        some (lib.ofStrings ((order.list securePartition.inInterface).map M.getName)) ∧
      lib.getPath root ["partition", "insecure_partition", "in_interface"] =
        some (lib.ofStrings ((order.list insecurePartition.inInterface).map M.getName)) := by
  obtain ⟨root₁, hloop₁, hroot₁, hentries₁, -⟩ := exists_writePartition lib M order graph
    "secure_partition" (by decide) securePartition (lib.writable_null 3)
  obtain ⟨root₂, hloop₂, -, hentries₂, hother₂⟩ := exists_writePartition lib M order graph
    "insecure_partition" (by decide) insecurePartition hroot₁
  have hmem : ∀ (name : String) (partition : Partition F G),
      (["partition", name, "in_interface"],
        lib.ofStrings ((order.list partition.inInterface).map M.getName)) ∈
        reportPartition lib M order graph name partition := by
    intro name partition
    unfold reportPartition reportInInterface functionEntries
    simp
  refine ⟨lib.dump root₂, root₂, ?_, lib.parse_dump root₂, ?_,
    hentries₂ _ (hmem "insecure_partition" insecurePartition)⟩
  · unfold report
    rw [hloop₁, Option.bind_eq_bind, Option.bind_some, hloop₂]
    rfl
  · exact (hother₂ ("secure_partition", "in_interface") (by decide)).trans
      (hentries₁ _ (hmem "secure_partition" securePartition))

end Document

end PartitionStatistics

end Vazgen
