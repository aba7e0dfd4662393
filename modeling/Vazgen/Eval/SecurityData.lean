import Vazgen.Analysis.StatisticsDocument
import Vazgen.Lib.ScanInt

/-!
# The published security levels

A script collects the levels of the security related functions from the statistics of all programs,
coverages, repeats and optimisations.

**`readLevels_report`**: the levels that it reads from a document are those of the partition.

**`collected_eq`**: what it collects for a coverage is what all its directories hold, but for the
coverage "expert-knowledge": there every program throws away what the ones before it have had.
-/

namespace Vazgen

variable {F G V R : Type}

namespace SecurityData

/-! ## Reading a document -/

section Model

/-- What stands behind the last blank: `data.split(" ")[-1]`. -/
def lastPart (data : List Char) : List Char := (data.reverse.takeWhile (· ≠ ' ')).reverse

/-- `(int)(…)`; `none` is an exception. -/
def parseInt (cs : List Char) : Option Int :=
  match ScanInt.scan cs with
  | .value n rest => if rest.all ScanInt.isSpace then some n else none
  | .eof | .mismatch => none

/-- `stats[key₁]..[keyₙ]`; `none` is an exception. -/
def subscript (stats : Json R) (keys : List String) : Option (Json R) := keys.foldlM Json.find stats

/-- `parse_data_for_security_related_level`, for a file that is there. -/
def readLevels (stats : Json R) : Option (List Int) :=
  match subscript stats ["partition", "secure_partition", "security_related_functions"] with
  | some (.array functions) =>
    functions.mapM fun data => data.toString?.bind fun text => parseInt (lastPart text.toList)
  | _ => none

/-- `parse_data_for_security_related_percent`, for a file that is there. -/
def readPercent (stats : Json R) : Option (Json R) :=
  subscript stats ["partition", "secure_partition", "security_related%"]

end Model

theorem lastPart_append {cs : List Char} (before : List Char) (h : ' ' ∉ cs) :
    lastPart (before ++ ' ' :: cs) = cs := by
  have hne : ∀ c ∈ cs.reverse, decide (c ≠ ' ') = true := fun c hc =>
    decide_eq_true fun heq => h (heq ▸ List.mem_reverse.1 hc)
  unfold lastPart
  rw [List.reverse_append, List.reverse_cons, List.append_assoc, List.takeWhile_append_of_pos hne]
  simp

theorem toList_toString (n : Int) : (toString n).toList = ScanInt.print n := by
  cases n with
  | ofNat n => exact Nat.toList_repr
  | negSucc n =>
    show ("-" ++ (n + 1).repr).toList = '-' :: Nat.toDigits 10 (n + 1)
    rw [String.toList_append, Nat.toList_repr]
    rfl

theorem parseInt_toString (n : Int) : parseInt (toString n).toList = some n := by
  have hends : ScanInt.Ends [] := nofun
  have hscan := ScanInt.scan_print n hends
  rw [List.append_nil] at hscan
  unfold parseInt
  rw [toList_toString, hscan]
  rfl

theorem getPath_null_keys (truncate : R → Int) (keys : List String) :
    (Json.library truncate).getPath .null keys = some .null := by
  induction keys with
  | nil => rfl
  | cons key keys ih => exact ih

/-- What a path leads to is found under the keys, if it is something. -/
theorem subscript_of_getPath {truncate : R → Int} {stats value : Json R} {keys : List String}
    (h : (Json.library truncate).getPath stats keys = some value) (hvalue : value ≠ .null) :
    subscript stats keys = some value := by
  induction keys generalizing stats with
  | nil => exact h
  | cons key keys ih =>
    obtain ⟨sub, hsub, hpath⟩ := Option.bind_eq_some_iff.1 h
    have hnull : sub ≠ .null := by
      rintro rfl
      rw [getPath_null_keys] at hpath
      exact hvalue (Option.some.inj hpath).symm
    have hfind : Json.find stats key = some sub := by
      cases stats with
      | object fields =>
        cases hlookup : fields.lookup key with
        | none =>
          have hsub : some ((fields.lookup key).getD .null) = some sub := hsub
          rw [hlookup] at hsub
          exact absurd (Option.some.inj hsub).symm hnull
        | some field =>
          have hsub : some ((fields.lookup key).getD .null) = some sub := hsub
          rw [hlookup] at hsub
          exact hlookup.trans hsub
      | null => exact absurd (Option.some.inj hsub).symm hnull
      | boolean _ => cases hsub
      | integer _ => cases hsub
      | number _ => cases hsub
      | string _ => cases hsub
      | array _ => cases hsub
    unfold subscript
    rw [List.foldlM_cons, hfind]
    exact ih hpath

/-- The text of a function and its level. -/
theorem parseInt_levelText (name : String) (level : Int) :
    parseInt (lastPart (name ++ "  " ++ toString level).toList) = some level := by
  have hblank : ' ' ∉ (toString level).toList := by
    rw [toList_toString]
    intro hmem
    cases level with
    | ofNat n =>
      have hdigit := ScanInt.isDigit_toDigits ' ' hmem
      cases hdigit
    | negSucc n =>
      rcases List.mem_cons.1 hmem with heq | hmem
      · cases heq
      · have hdigit := ScanInt.isDigit_toDigits ' ' hmem
        cases hdigit
  have htext : (name ++ "  " ++ toString level).toList =
      (name.toList ++ [' ']) ++ ' ' :: (toString level).toList := by
    rw [String.toList_append, String.toList_append]
    simp
  rw [htext, lastPart_append _ hblank, parseInt_toString]

/-- The levels behind some names. -/
theorem mapM_levelText (name : F → String) (level : F → Int) (fs : List F) :
    ((fs.map fun f => name f ++ "  " ++ toString (level f)).map (Json.string (R := R))).mapM
        (fun data => data.toString?.bind fun text => parseInt (lastPart text.toList)) =
      some (fs.map level) := by
  induction fs with
  | nil => rfl
  | cons f fs ih =>
    have hf : (Json.string (R := R) (name f ++ "  " ++ toString (level f))).toString?.bind
        (fun text => parseInt (lastPart text.toList)) = some (level f) :=
      parseInt_levelText (name f) (level f)
    rw [List.map_cons, List.map_cons, List.mapM_cons, hf, ih]
    rfl

/-- **The levels are read back**, and the percentage, which is a number if the module has a
function. -/
theorem readLevels_report [DecidableEq F] [Field R] [LinearOrder R] (truncate : R → Int)
    (M : Module F G V) (order : IterationOrder F) (graph : CallGraph F R)
    (securePartition insecurePartition : Partition F G) :
    ∃ stats, PartitionStatistics.report (Json.library truncate) M order graph securePartition
        insecurePartition = some stats ∧
      readLevels stats = some ((order.list securePartition.relatedFunctions.keys).map fun f =>
        (securePartition.relatedFunctions.lookup f).getD 0) ∧
      (M.functions ≠ [] → ∃ percent : R, PartitionStatistics.percentage
        (order.list securePartition.relatedFunctions.keys).length M.functions.length = some percent ∧
          readPercent stats = some (.number percent)) := by
  obtain ⟨text, stats, hreport, hparse, hpath⟩ := PartitionStatistics.getPath_entries
    (Json.library truncate) M order graph securePartition insecurePartition
  obtain rfl : text = stats := Option.some.inj hparse
  refine ⟨text, hreport, ?_, fun hM => ?_⟩
  · have hfunctions : subscript text
        ["partition", "secure_partition", "security_related_functions"] =
        some (.array (((order.list securePartition.relatedFunctions.keys).map fun f =>
          M.getName f ++ "  " ++ toString ((securePartition.relatedFunctions.lookup f).getD 0)).map
            .string)) :=
      subscript_of_getPath (hpath "secure_partition" "security_related_functions") nofun
    unfold readLevels
    rw [hfunctions]
    exact mapM_levelText _ _ _
  · have hlength : M.functions.length ≠ 0 := fun h => hM (List.length_eq_zero_iff.1 h)
    have hpercentage : PartitionStatistics.percentage
        (order.list securePartition.relatedFunctions.keys).length M.functions.length =
          some (((order.list securePartition.relatedFunctions.keys).length : R) * 100 /
            (M.functions.length : R)) := if_neg hlength
    have hpercent := hpath "secure_partition" "security_related%"
    have hlookup : (PartitionStatistics.reportPartition (Json.library truncate) M order graph
        "insecure_partition" insecurePartition ++
          PartitionStatistics.reportPartition (Json.library truncate) M order graph
            "secure_partition" securePartition).lookup
              ["partition", "secure_partition", "security_related%"] =
        some ((Json.library truncate).ofNumber? (PartitionStatistics.percentage
          ((order.list securePartition.relatedFunctions.keys).map fun f =>
            M.getName f ++ "  " ++ toString
              ((securePartition.relatedFunctions.lookup f).getD 0)).length M.functions.length)) := rfl
    rw [hlookup, List.length_map, hpercentage] at hpercent
    exact ⟨_, hpercentage, subscript_of_getPath hpercent nofun⟩

/-- Two of the three functions of the module are related. -/
def chainRelated : Partition PartitionOptimizer.ChainFunction Empty :=
  (({} : Partition PartitionOptimizer.ChainFunction Empty).addRelatedFunction .work 1).addRelatedFunction
    .log 2

theorem chain_readLevels_report : ∃ (stats : Json ℚ) (percent : ℚ),
    PartitionStatistics.report (Json.library fun _ => 0) PartitionOptimizer.chainModule
        PartitionOptimizer.chainEnvironment.order { functionNodes := [] } chainRelated {} =
      some stats ∧
      readLevels stats = some [1, 2] ∧ readPercent stats = some (.number percent) := by
  obtain ⟨stats, hreport, hlevels, hpercent⟩ := readLevels_report (fun _ : ℚ => 0)
    PartitionOptimizer.chainModule PartitionOptimizer.chainEnvironment.order { functionNodes := [] }
    chainRelated {}
  obtain ⟨percent, -, hpercent⟩ := hpercent (by decide)
  exact ⟨stats, percent, hreport, hlevels.trans (by decide), hpercent⟩

/-! ## Collecting the levels -/

section Collect

/-- What is read from one file. -/
structure Run (R : Type) where
  percent : Json R
  levels : List Int

/-- The directories below `STAT_DIR`, as they are listed, and the files in them. -/
structure Directories (R : Type) where
  programs : List String
  coverages : String → List String
  repeats : String → String → List String
  /-- program, coverage and repeat, which is empty for the coverage "expert-knowledge" -/
  optimizations : String → String → String → List String
  statFile : String → String → String → String → Option (Json R)

/-- `security_related` and `security_related_percent`, which have the same keys: the levels of the
runs, one behind the other, and their percentages. -/
abbrev SecurityRelated (R : Type) : Type := String → Option (String → Option (List (Run R)))

variable (dirs : Directories R)

/-- A missing file makes `extend(None)` raise an exception. -/
def readRun (program coverage repeatDir opt : String) : Option (Run R) := do
  let stats ← dirs.statFile program coverage repeatDir opt
  let percent ← readPercent stats
  let levels ← readLevels stats
  some { percent := percent, levels := levels }

/-- `dict[coverage][opt] = runs` -/
def setRuns (s : SecurityRelated R) (coverage opt : String) (runs : List (Run R)) :
    Option (SecurityRelated R) :=
  (s coverage).map fun ofOpt => Function.update s coverage (some (Function.update ofOpt opt (some runs)))

/-- `dict[coverage][opt].append(run)` -/
def addRun (s : SecurityRelated R) (coverage opt : String) (run : Run R) :
    Option (SecurityRelated R) :=
  ((s coverage).bind fun ofOpt => ofOpt opt).bind fun runs => setRuns s coverage opt (runs ++ [run])

/-- The list of a key that is missing is made. -/
def startRuns (s : SecurityRelated R) (coverage opt : String) (isMissing : Bool) :
    Option (SecurityRelated R) :=
  if isMissing then setRuns s coverage opt [] else some s

def expertKnowledge : String := "expert-knowledge"

/-- The body of the loop of `parse_data_for_manual_coverage`.  The key is looked for among the
coverages. -/
def visitManual (program : String) (s : SecurityRelated R) (opt : String) :
    Option (SecurityRelated R) := do
  let s ← startRuns s expertKnowledge opt (s opt).isNone
  let run ← readRun dirs program expertKnowledge "" opt
  addRun s expertKnowledge opt run

/-- The body of the inner loop of `parse_data_for_program_coverage`. -/
def visitOptimization (program coverage repeatDir : String) (s : SecurityRelated R) (opt : String) :
    Option (SecurityRelated R) := do
  let ofOpt ← s coverage
  let s ← startRuns s coverage opt (ofOpt opt).isNone
  let run ← readRun dirs program coverage repeatDir opt
  addRun s coverage opt run

/-- `parse_data_for_program_coverage` -/
def parseDataForProgramCoverage (program : String) (s : SecurityRelated R) (coverage : String) :
    Option (SecurityRelated R) :=
  if coverage = expertKnowledge then
    (dirs.optimizations program expertKnowledge "").foldlM (visitManual dirs program) s
  else
    (dirs.repeats program coverage).foldlM (fun s repeatDir =>
      (dirs.optimizations program coverage repeatDir).foldlM
        (visitOptimization dirs program coverage repeatDir) s) s

/-- `parse_data_for_program` -/
def parseDataForProgram (s : SecurityRelated R) (program : String) : Option (SecurityRelated R) :=
  (dirs.coverages program).foldlM (fun s coverage =>
    parseDataForProgramCoverage dirs program
      (if (s coverage).isNone then Function.update s coverage (some fun _ => none) else s) coverage) s

/-- `parse_data` -/
def parseData : Option (SecurityRelated R) :=
  dirs.programs.foldlM (parseDataForProgram dirs) fun _ => none

end Collect

/-! ## The runs that are kept -/

section Kept

variable {dirs : Directories R} {s t : SecurityRelated R} {coverage opt : String}

/-- The runs under two keys. -/
def runsOf (s : SecurityRelated R) (coverage opt : String) : List (Run R) :=
  ((s coverage).bind fun ofOpt => ofOpt opt).getD []

/-- What is left of the runs that were read for a coverage and an optimisation. -/
def kept (coverage : String) (runs : List (Run R)) : List (Run R) :=
  if coverage = expertKnowledge then runs.getLast?.toList else runs

theorem runsOf_setRuns {runs : List (Run R)} (h : setRuns s coverage opt runs = some t)
    (coverage' opt' : String) : runsOf t coverage' opt' =
      if coverage' = coverage ∧ opt' = opt then runs else runsOf s coverage' opt' := by
  obtain ⟨ofOpt, hofOpt, rfl⟩ := Option.map_eq_some_iff.1 h
  unfold runsOf
  by_cases hcoverage : coverage' = coverage
  · subst hcoverage
    rw [Function.update_self, hofOpt]
    by_cases hopt : opt' = opt
    · subst hopt
      simp
    · simp [hopt]
  · rw [Function.update_of_ne hcoverage, if_neg fun h => hcoverage h.1]

theorem runsOf_addRun {run : Run R} (h : addRun s coverage opt run = some t)
    (coverage' opt' : String) : runsOf t coverage' opt' =
      if coverage' = coverage ∧ opt' = opt then runsOf s coverage opt ++ [run]
      else runsOf s coverage' opt' := by
  obtain ⟨runs, hruns, h⟩ := Option.bind_eq_some_iff.1 h
  rw [runsOf_setRuns h]
  congr 1
  unfold runsOf
  rw [hruns]
  rfl

/-- No key of the outer dictionary is new. -/
theorem isSome_of_setRuns {runs : List (Run R)} (h : setRuns s coverage opt runs = some t)
    (coverage' : String) : (t coverage').isSome = (s coverage').isSome := by
  obtain ⟨ofOpt, hofOpt, rfl⟩ := Option.map_eq_some_iff.1 h
  by_cases hcoverage : coverage' = coverage
  · subst hcoverage
    rw [Function.update_self, hofOpt]
    rfl
  · rw [Function.update_of_ne hcoverage]

theorem isSome_of_addRun {run : Run R} (h : addRun s coverage opt run = some t)
    (coverage' : String) : (t coverage').isSome = (s coverage').isSome := by
  obtain ⟨runs, -, h⟩ := Option.bind_eq_some_iff.1 h
  exact isSome_of_setRuns h coverage'

variable (dirs) in
/-- The state once the runs `seen` have been read. -/
structure Collected (s : SecurityRelated R) (seen : String → String → List (Run R)) : Prop where
  runs : ∀ coverage opt, runsOf s coverage opt = kept coverage (seen coverage opt)
  listed : ∀ coverage, (s coverage).isSome = true →
    ∃ program ∈ dirs.programs, coverage ∈ dirs.coverages program

variable (dirs) in
/-- No optimisation of the coverage "expert-knowledge" is called like a coverage. -/
def NamesApart : Prop :=
  ∀ program ∈ dirs.programs, ∀ opt ∈ dirs.optimizations program expertKnowledge "",
    ∀ program' ∈ dirs.programs, opt ∉ dirs.coverages program'

variable (dirs) in
/-- What is read for a file. -/
def newRuns (program coverage repeatDir opt coverage' opt' : String) : List (Run R) :=
  if coverage' = coverage ∧ opt' = opt then (readRun dirs program coverage repeatDir opt).toList
  else []

variable {seen : String → String → List (Run R)} {program repeatDir : String}

/-- One run is added, and for the coverage "expert-knowledge" it stays the only one. -/
theorem Collected.addRun {run : Run R} {s' : SecurityRelated R} (h : Collected dirs s seen)
    (hs' : ∀ coverage, (s' coverage).isSome = (s coverage).isSome)
    (hruns : ∀ coverage' opt', runsOf s' coverage' opt' =
      if coverage' = coverage ∧ opt' = opt then
        if coverage = expertKnowledge then [] else runsOf s coverage opt
      else runsOf s coverage' opt')
    (hread : readRun dirs program coverage repeatDir opt = some run)
    (hadd : SecurityData.addRun s' coverage opt run = some t) :
    Collected dirs t fun coverage' opt' =>
      seen coverage' opt' ++ newRuns dirs program coverage repeatDir opt coverage' opt' := by
  have hown : runsOf s' coverage opt =
      if coverage = expertKnowledge then [] else runsOf s coverage opt :=
    (hruns coverage opt).trans (if_pos ⟨rfl, rfl⟩)
  refine ⟨fun coverage' opt' => ?_, fun coverage' hsome => ?_⟩
  · rw [runsOf_addRun hadd, hown]
    unfold newRuns
    by_cases hkey : coverage' = coverage ∧ opt' = opt
    · obtain ⟨rfl, rfl⟩ := hkey
      have hself : coverage' = coverage' ∧ opt' = opt' := ⟨rfl, rfl⟩
      rw [if_pos hself, if_pos hself, hread, h.runs]
      unfold kept
      by_cases hexpert : coverage' = expertKnowledge
      · simp [hexpert]
      · simp [hexpert]
    · rw [if_neg hkey, if_neg hkey, List.append_nil, hruns, if_neg hkey]
      exact h.runs _ _
  · rw [isSome_of_addRun hadd, hs'] at hsome
    exact h.listed coverage' hsome

/-- **Step lemma**, for the coverage "expert-knowledge". -/
theorem Collected.visitManual (hnames : NamesApart dirs) (hprogram : program ∈ dirs.programs)
    (hopt : opt ∈ dirs.optimizations program expertKnowledge "") (h : Collected dirs s seen)
    (ht : visitManual dirs program s opt = some t) :
    Collected dirs t fun coverage' opt' =>
      seen coverage' opt' ++ newRuns dirs program expertKnowledge "" opt coverage' opt' := by
  have hnone : (s opt).isNone = true := by
    cases hkey : s opt with
    | none => rfl
    | some ofOpt =>
      obtain ⟨program', hmem, hlisted⟩ := h.listed opt (by rw [hkey]; rfl)
      exact absurd hlisted (hnames program hprogram opt hopt program' hmem)
  unfold SecurityData.visitManual startRuns at ht
  rw [if_pos hnone] at ht
  obtain ⟨s', hs', ht⟩ := Option.bind_eq_some_iff.1 ht
  obtain ⟨run, hread, hadd⟩ := Option.bind_eq_some_iff.1 ht
  refine h.addRun (isSome_of_setRuns hs') (fun coverage' opt' => ?_) hread hadd
  rw [runsOf_setRuns hs', if_pos rfl]

/-- **Step lemma**, for the other coverages. -/
theorem Collected.visitOptimization (hcoverage : coverage ≠ expertKnowledge)
    (h : Collected dirs s seen)
    (ht : visitOptimization dirs program coverage repeatDir s opt = some t) :
    Collected dirs t fun coverage' opt' =>
      seen coverage' opt' ++ newRuns dirs program coverage repeatDir opt coverage' opt' := by
  obtain ⟨ofOpt, hofOpt, ht⟩ := Option.bind_eq_some_iff.1 ht
  obtain ⟨s', hs', ht⟩ := Option.bind_eq_some_iff.1 ht
  obtain ⟨run, hread, hadd⟩ := Option.bind_eq_some_iff.1 ht
  unfold startRuns at hs'
  split at hs'
  · next hnone =>
    refine h.addRun (isSome_of_setRuns hs') (fun coverage' opt' => ?_) hread hadd
    have hempty : runsOf s coverage opt = [] := by
      unfold runsOf
      rw [hofOpt, Option.bind_some, Option.isNone_iff_eq_none.1 hnone]
      rfl
    rw [runsOf_setRuns hs', if_neg hcoverage, hempty]
  · cases hs'
    refine h.addRun (fun _ => rfl) (fun coverage' opt' => ?_) hread hadd
    rw [if_neg hcoverage]
    split
    · next hkey => rw [hkey.1, hkey.2]
    · rfl

/-- A loop adds what its rounds add. -/
theorem Collected.foldlM {α : Type} {body : SecurityRelated R → α → Option (SecurityRelated R)}
    {new : α → String → String → List (Run R)} {l : List α}
    (hstep : ∀ a ∈ l, ∀ s t seen, Collected dirs s seen → body s a = some t →
      Collected dirs t fun coverage opt => seen coverage opt ++ new a coverage opt)
    (h : Collected dirs s seen) (ht : l.foldlM body s = some t) :
    Collected dirs t fun coverage opt =>
      seen coverage opt ++ l.flatMap fun a => new a coverage opt := by
  induction l generalizing s seen with
  | nil =>
    cases ht
    simpa using h
  | cons a l ih =>
    obtain ⟨s', hs', ht⟩ := Option.bind_eq_some_iff.1 ht
    have hrest := ih (fun b hb => hstep b (List.mem_cons_of_mem a hb))
      (hstep a List.mem_cons_self _ _ _ h hs') ht
    simpa only [List.flatMap_cons, List.append_assoc] using hrest

variable (dirs) in
def repeatDirs (program coverage : String) : List String :=
  if coverage = expertKnowledge then [""] else dirs.repeats program coverage

variable (dirs) in
/-- The runs of a coverage directory. -/
def coverageRuns (program coverage coverage' opt' : String) : List (Run R) :=
  (repeatDirs dirs program coverage).flatMap fun repeatDir =>
    (dirs.optimizations program coverage repeatDir).flatMap fun opt =>
      newRuns dirs program coverage repeatDir opt coverage' opt'

variable (dirs) in
/-- All runs of a coverage and an optimisation that there are files for, program by program. -/
def allRuns (coverage opt : String) : List (Run R) :=
  dirs.programs.flatMap fun program =>
    (dirs.coverages program).flatMap fun coverage' => coverageRuns dirs program coverage' coverage opt

theorem Collected.parseDataForProgramCoverage (hnames : NamesApart dirs)
    (hprogram : program ∈ dirs.programs) (h : Collected dirs s seen)
    (ht : parseDataForProgramCoverage dirs program s coverage = some t) :
    Collected dirs t fun coverage' opt' =>
      seen coverage' opt' ++ coverageRuns dirs program coverage coverage' opt' := by
  unfold SecurityData.parseDataForProgramCoverage at ht
  unfold coverageRuns repeatDirs
  split at ht
  · next hexpert =>
    subst hexpert
    rw [if_pos rfl]
    simp only [List.flatMap_singleton]
    exact h.foldlM (fun opt hopt _ _ _ hs => hs.visitManual hnames hprogram hopt) ht
  · next hcoverage =>
    rw [if_neg hcoverage]
    exact h.foldlM (fun repeatDir _ _ _ _ hs =>
      hs.foldlM fun opt _ _ _ _ hs => hs.visitOptimization hcoverage) ht

theorem Collected.parseDataForProgram (hnames : NamesApart dirs)
    (hprogram : program ∈ dirs.programs) (h : Collected dirs s seen)
    (ht : parseDataForProgram dirs s program = some t) :
    Collected dirs t fun coverage' opt' => seen coverage' opt' ++
      (dirs.coverages program).flatMap fun coverage =>
        coverageRuns dirs program coverage coverage' opt' := by
  refine h.foldlM (fun coverage hcoverage s t seen hs ht => ?_) ht
  refine Collected.parseDataForProgramCoverage hnames hprogram ?_ ht
  split
  · next hnone =>
    -- an empty dictionary has no runs
    refine ⟨fun coverage' opt' => ?_, fun coverage' hsome => ?_⟩
    · rw [← hs.runs]
      unfold runsOf
      by_cases hkey : coverage' = coverage
      · rw [hkey, Function.update_self, Option.isNone_iff_eq_none.1 hnone]
        rfl
      · rw [Function.update_of_ne hkey]
    · by_cases hkey : coverage' = coverage
      · exact ⟨program, hprogram, hkey ▸ hcoverage⟩
      · rw [Function.update_of_ne hkey] at hsome
        exact hs.listed coverage' hsome
  · exact hs

end Kept

/-! ## Top theorem -/

/-- **What is collected**, if the script ends: all runs of a coverage, but of the coverage
"expert-knowledge" only the last one.  Those are all runs exactly if there is no more than one. -/
theorem collected_eq (dirs : Directories R) (hnames : NamesApart dirs) {s : SecurityRelated R}
    (h : parseData dirs = some s) (opt : String) :
    (∀ coverage, runsOf s coverage opt = kept coverage (allRuns dirs coverage opt)) ∧
      (runsOf s expertKnowledge opt = allRuns dirs expertKnowledge opt ↔
        (allRuns dirs expertKnowledge opt).length ≤ 1) := by
  have hstart : Collected dirs (fun _ => none) fun _ _ => [] :=
    ⟨fun coverage opt => by unfold kept; split <;> rfl, fun _ hsome => by cases hsome⟩
  have hall : Collected dirs s fun coverage opt => [] ++ allRuns dirs coverage opt :=
    hstart.foldlM (fun program hprogram _ _ _ hs => hs.parseDataForProgram hnames hprogram) h
  have hruns : ∀ coverage, runsOf s coverage opt = kept coverage (allRuns dirs coverage opt) :=
    fun coverage => hall.runs coverage opt
  refine ⟨hruns, ?_⟩
  rw [hruns, kept, if_pos rfl]
  cases allRuns dirs expertKnowledge opt with
  | nil => simp
  | cons run runs =>
    cases runs with
    | nil => simp
    | cons run' runs =>
      refine iff_of_false (fun heq => ?_) (by simp)
      have hlength := congrArg List.length heq
      simp [List.getLast?_cons] at hlength

/-- The statistics of a run with one related function. -/
def levelStats (level : Int) : Json ℚ :=
  .object [("partition", .object [("secure_partition", .object
    [("security_related_functions", .array [.string ("log  " ++ toString level)]),
      ("security_related%", .number 50)])])]

/-- Two programs, each with one run of "expert-knowledge". -/
def twoPrograms : Directories ℚ where
  programs := ["snake", "tetris"]
  coverages := fun _ => ["expert-knowledge"]
  repeats := fun _ _ => []
  optimizations := fun _ _ _ => ["ilp"]
  statFile := fun program _ _ _ => some (levelStats (if program = "snake" then 1 else 2))

theorem twoPrograms_collected : ∃ s, parseData twoPrograms = some s ∧
    runsOf s expertKnowledge "ilp" ≠ allRuns twoPrograms expertKnowledge "ilp" := by
  have hparse : ∃ s, parseData twoPrograms = some s := ⟨_, rfl⟩
  obtain ⟨s, hs⟩ := hparse
  have hnames : NamesApart twoPrograms := by
    unfold NamesApart twoPrograms
    decide
  refine ⟨s, hs, fun heq => ?_⟩
  have hlength := (collected_eq twoPrograms hnames hs "ilp").2.1 heq
  exact absurd hlength (by decide)

end SecurityData

end Vazgen
