import Vazgen.Lib.RunningTotals
import Mathlib.Algebra.Order.Ring.Rat
import Mathlib.Data.List.Nodup

/-!
# Evaluating the context switches of the partitions

For every program and coverage a script goes through the repeats of the experiment and counts the calls
that cross each optimised partition.  The counter of an optimisation is shared by the repeats, for their
average, and is also appended to the samples of which the mean, the median and the deviation are
published.  So from the second repeat on a sample has the numbers of the earlier repeats in it.

**`averageContextSwitches_eq`**: the averages are those over the visited repeats.
**`samples_right_iff`**: the samples are the numbers of their own repeats, in every order of these,
exactly if only one is visited or nothing ever crosses.
-/

namespace Vazgen

namespace ContextSwitchesEvalData

/-! ## Model -/

structure CallStackEntry where
  caller : String
  callee : String
  callNum : Int

/-- What was parsed; every combination that is looked at has its partitions. -/
structure Data where
  programs : List String
  coverages : List String
  repeats : List String
  optimizations : List String
  /-- program, coverage, repeat and optimisation -/
  securePartition : String → String → String → String → List String
  insecurePartition : String → String → String → String → List String
  callStackEntries : String → List CallStackEntry

/-- A number that was appended, with the program and the repeat it was appended for. -/
structure Sample where
  program : String
  repeatDir : String
  number : Int
deriving DecidableEq

/-- The dictionaries; `raised` is set by an exception, which ends the run. -/
structure State where
  contextSwitches : String × String × String → Int := fun _ => 0
  partitionCoverageContextSwitches : String × String → List Sample := fun _ => []
  ilpImprovement : String × String → Option ℚ := fun _ => none
  raised : Bool := false

def isContextSwitch (caller callee : String) (secureFs _insecureFs : List String) : Bool :=
  let isSecureCaller := secureFs.contains caller
  let isSecureCallee := secureFs.contains callee
  !(isSecureCaller == isSecureCallee)

/-- The combinations of a coverage and a repeat that the inner loop skips. -/
def skipped (cov repeatDir : String) : Bool :=
  (cov == "expert-knowledge" && repeatDir != "no-repeat") ||
    (cov != "expert-knowledge" && repeatDir == "no-repeat")

/-- The innermost loop. -/
def countEntries (data : Data) (program cov repeatDir opt : String) (count : Int) : Int :=
  let secureFs := data.securePartition program cov repeatDir opt
  let insecureFs := data.insecurePartition program cov repeatDir opt
  (data.callStackEntries program).foldl (fun count entry =>
    if isContextSwitch entry.caller entry.callee secureFs insecureFs then count + entry.callNum
    else count) count

/-- The body of the loop over the optimisations. -/
def visitOptimization (data : Data) (program cov repeatDir : String) (s : State) (opt : String) :
    State :=
  if skipped cov repeatDir then s
  else
    let count := countEntries data program cov repeatDir opt (s.contextSwitches (program, cov, opt))
    { s with
      contextSwitches := Function.update s.contextSwitches (program, cov, opt) count
      partitionCoverageContextSwitches :=
        Function.update s.partitionCoverageContextSwitches (cov, opt)
          (s.partitionCoverageContextSwitches (cov, opt) ++
            [{ program := program, repeatDir := repeatDir, number := count }]) }

def visitRepeat (data : Data) (program cov : String) (s : State) (repeatDir : String) : State :=
  data.optimizations.foldl (visitOptimization data program cov repeatDir) s

/-- The counters of the two optimisations that are compared; a missing key and a division by zero
raise an exception. -/
def compareIlp (data : Data) (program cov : String) (s : State) : State :=
  let ilp := s.contextSwitches (program, cov, "ilp")
  if "search-based" ∈ data.optimizations ∧ "ilp" ∈ data.optimizations ∧ ilp ≠ 0 then
    { s with
      ilpImprovement := Function.update s.ilpImprovement (program, cov)
        (some ((s.contextSwitches (program, cov, "search-based") : ℚ) / ilp)) }
  else { s with raised := true }

def visitCoverage (data : Data) (s : State) (key : String × String) : State :=
  if s.raised then s
  else compareIlp data key.1 key.2 (data.repeats.foldl (visitRepeat data key.1 key.2) s)

/-- The first loop of `compute_context_switches`. -/
def computeContextSwitches (data : Data) : State :=
  (data.programs.flatMap fun program => data.coverages.map fun cov => (program, cov)).foldl
    (visitCoverage data) {}

/-- The second loop, which averages the counters; a single repeat makes it divide by zero. -/
def averageContextSwitches (data : Data) (s : State) (key : String × String × String) : Option ℚ :=
  let total : ℚ := s.contextSwitches key
  if key.2.1 = "expert-knowledge" then some total
  else if data.repeats.length = 1 then none
  else some (total / ((data.repeats.length : ℚ) - 1))

/-! ## What a repeat adds -/

/-- The calls that cross the partition of one repeat. -/
def crossing (data : Data) (program cov opt repeatDir : String) : Int :=
  (((data.callStackEntries program).filter fun entry =>
    decide (¬ (entry.caller ∈ data.securePartition program cov repeatDir opt ↔
      entry.callee ∈ data.securePartition program cov repeatDir opt))).map (·.callNum)).sum

theorem countEntries_eq (data : Data) (program cov repeatDir opt : String) (count : Int) :
    countEntries data program cov repeatDir opt count =
      count + crossing data program cov opt repeatDir := by
  unfold countEntries crossing
  dsimp only
  induction data.callStackEntries program generalizing count with
  | nil => simp
  | cons entry entries ih =>
    have hcross : isContextSwitch entry.caller entry.callee
          (data.securePartition program cov repeatDir opt)
          (data.insecurePartition program cov repeatDir opt) =
        decide (¬ (entry.caller ∈ data.securePartition program cov repeatDir opt ↔
          entry.callee ∈ data.securePartition program cov repeatDir opt)) := by
      simp [isContextSwitch]
    rw [List.foldl_cons, ih, hcross, List.filter_cons]
    split
    · rw [List.map_cons, List.sum_cons, add_assoc]
    · rfl

/-- What a part of the run adds to the counters and to the samples. -/
structure Adds (s s' : State) (counts : String × String × String → Int)
    (samples : String × String → List Sample) : Prop where
  counts : ∀ key, s'.contextSwitches key = s.contextSwitches key + counts key
  samples : ∀ key, s'.partitionCoverageContextSwitches key =
    s.partitionCoverageContextSwitches key ++ samples key
  raised : s'.raised = s.raised

theorem Adds.refl (s : State) : Adds s s (fun _ => 0) fun _ => [] :=
  ⟨fun _ => (add_zero _).symm, fun _ => (List.append_nil _).symm, rfl⟩

theorem Adds.trans {s t u : State} {counts counts' counts'' : String × String × String → Int}
    {samples samples' samples'' : String × String → List Sample} (h : Adds s t counts samples)
    (h' : Adds t u counts' samples') (hcounts : ∀ key, counts'' key = counts key + counts' key)
    (hsamples : ∀ key, samples'' key = samples key ++ samples' key) :
    Adds s u counts'' samples'' := by
  refine ⟨fun key => ?_, fun key => ?_, h'.raised.trans h.raised⟩
  · rw [h'.counts, h.counts, hcounts, add_assoc]
  · rw [h'.samples, h.samples, hsamples, List.append_assoc]

section Run

variable (data : Data) (program : String) {cov repeatDir : String}

theorem visitOptimization_adds (hskip : skipped cov repeatDir = false) (s : State) (opt : String) :
    Adds s (visitOptimization data program cov repeatDir s opt)
      (fun key => if key = (program, cov, opt) then crossing data program cov opt repeatDir else 0)
      (fun key => if key = (cov, opt) then
        [{ program := program, repeatDir := repeatDir
           number := s.contextSwitches (program, cov, opt) +
             crossing data program cov opt repeatDir }] else []) := by
  unfold visitOptimization
  rw [hskip, if_neg Bool.false_ne_true, countEntries_eq]
  refine ⟨fun key => ?_, fun key => ?_, rfl⟩
  · by_cases hkey : key = (program, cov, opt)
    · subst hkey
      rw [if_pos rfl]
      exact Function.update_self ..
    · rw [if_neg hkey, add_zero]
      exact Function.update_of_ne hkey ..
  · by_cases hkey : key = (cov, opt)
    · subst hkey
      rw [if_pos rfl]
      exact Function.update_self ..
    · rw [if_neg hkey, List.append_nil]
      exact Function.update_of_ne hkey ..

/-- A skipped repeat adds nothing. -/
theorem visitRepeat_of_skipped (hskip : skipped cov repeatDir = true) (s : State) :
    visitRepeat data program cov s repeatDir = s := by
  unfold visitRepeat
  induction data.optimizations with
  | nil => rfl
  | cons opt opts ih =>
    rw [List.foldl_cons]
    unfold visitOptimization at ih ⊢
    rwa [if_pos hskip]

/-- Every optimisation gets one sample. -/
theorem visitOptimizations_adds (hskip : skipped cov repeatDir = false) {opts : List String}
    (hopts : opts.Nodup) (s : State) :
    Adds s (opts.foldl (visitOptimization data program cov repeatDir) s)
      (fun key => if key.1 = program ∧ key.2.1 = cov ∧ key.2.2 ∈ opts then
        crossing data program cov key.2.2 repeatDir else 0)
      (fun key => if key.1 = cov ∧ key.2 ∈ opts then
        [{ program := program, repeatDir := repeatDir
           number := s.contextSwitches (program, cov, key.2) +
             crossing data program cov key.2 repeatDir }] else []) := by
  induction opts generalizing s with
  | nil => simpa using Adds.refl s
  | cons opt opts ih =>
    obtain ⟨hopt, hopts⟩ := List.nodup_cons.1 hopts
    have hstep := visitOptimization_adds data program hskip s opt
    refine hstep.trans (ih hopts _) (fun key => ?_) fun key => ?_
    · obtain ⟨p, c, o⟩ := key
      by_cases ho : o = opt
      · subst ho
        simp [hopt]
      · simp [ho]
    · obtain ⟨c, o⟩ := key
      by_cases ho : o = opt
      · subst ho
        simp [hopt]
      · -- the counter of another optimisation has not changed
        have hother := hstep.counts (program, cov, o)
        rw [if_neg (by simp [ho]), add_zero] at hother
        simp [ho, hother]

/-- The repeats of a coverage that are not skipped. -/
def visited (cov : String) (repeats : List String) : List String :=
  repeats.filter fun repeatDir => !skipped cov repeatDir

/-- The samples that the repeats of a coverage get for a program, if the counter starts at `count`. -/
def samplesOf (data : Data) (program cov opt : String) (count : Int) (repeats : List String) :
    List Sample :=
  (RunningTotals.runningTotals (crossing data program cov opt) count (visited cov repeats)).map
    fun total => { program := program, repeatDir := total.1, number := total.2 }

theorem visitRepeats_adds (cov : String) (hopts : data.optimizations.Nodup) (repeats : List String)
    (s : State) :
    Adds s (repeats.foldl (visitRepeat data program cov) s)
      (fun key => if key.1 = program ∧ key.2.1 = cov ∧ key.2.2 ∈ data.optimizations then
        ((visited cov repeats).map (crossing data program cov key.2.2)).sum else 0)
      (fun key => if key.1 = cov ∧ key.2 ∈ data.optimizations then
        samplesOf data program cov key.2 (s.contextSwitches (program, cov, key.2)) repeats
        else []) := by
  induction repeats generalizing s with
  | nil => simpa [visited, samplesOf, RunningTotals.runningTotals] using Adds.refl s
  | cons repeatDir repeats ih =>
    rw [List.foldl_cons]
    cases hskip : skipped cov repeatDir with
    | true =>
      rw [visitRepeat_of_skipped data program hskip]
      simpa [visited, samplesOf, List.filter_cons, hskip] using ih s
    | false =>
      have hstep := visitOptimizations_adds data program hskip hopts s
      refine hstep.trans (ih _) (fun key => ?_) fun key => ?_
      · simp only [visited, List.filter_cons, hskip, Bool.not_false, if_true, List.map_cons,
          List.sum_cons]
        split
        · rfl
        · rfl
      · simp only [samplesOf, visited, List.filter_cons, hskip, Bool.not_false, if_true]
        split
        · next hkey =>
          -- the next repeat starts from what this one has counted
          have hnext := hstep.counts (program, cov, key.2)
          rw [if_pos ⟨rfl, rfl, hkey.2⟩] at hnext
          rw [hnext]
          rfl
        · rfl

/-! ## The whole run -/

/-- No exception is raised behind the repeats of a program and a coverage. -/
def Compares (key : String × String) : Prop :=
  "search-based" ∈ data.optimizations ∧ "ilp" ∈ data.optimizations ∧
    ((visited key.2 data.repeats).map (crossing data key.1 key.2 "ilp")).sum ≠ 0

instance : DecidablePred (Compares data) := fun _ => inferInstanceAs (Decidable (_ ∧ _ ∧ _))

/-- The programs and coverages up to the first that raises an exception. -/
def reached : List (String × String) → List (String × String)
  | [] => []
  | key :: keys => key :: if Compares data key then reached keys else []

/-- The programs and coverages in the order of the loops. -/
def keys : List (String × String) :=
  data.programs.flatMap fun program => data.coverages.map fun cov => (program, cov)

variable {data}

theorem visitCoverages_of_raised {s : State} (hs : s.raised = true) (keys : List (String × String)) :
    keys.foldl (visitCoverage data) s = s := by
  induction keys with
  | nil => rfl
  | cons key keys ih =>
    rw [List.foldl_cons, visitCoverage, if_pos hs]
    exact ih

theorem compareIlp_kept (data : Data) (program cov : String) (s : State) :
    (compareIlp data program cov s).contextSwitches = s.contextSwitches ∧
      (compareIlp data program cov s).partitionCoverageContextSwitches =
        s.partitionCoverageContextSwitches := by
  unfold compareIlp
  dsimp only
  split
  · exact ⟨rfl, rfl⟩
  · exact ⟨rfl, rfl⟩

/-- The calls that cross in all visited repeats. -/
def total (data : Data) (key : String × String) (opt : String) : Int :=
  ((visited key.2 data.repeats).map (crossing data key.1 key.2 opt)).sum

/-- One program and coverage: its counters start at 0, and the others are kept. -/
theorem visitCoverage_spec (hopts : data.optimizations.Nodup) {s : State} (hs : s.raised = false)
    (key : String × String) (hzero : ∀ o, s.contextSwitches (key.1, key.2, o) = 0) :
    (∀ p c o, (visitCoverage data s key).contextSwitches (p, c, o) =
      s.contextSwitches (p, c, o) +
        if (p, c) = key ∧ o ∈ data.optimizations then total data key o else 0) ∧
    (∀ c o, (visitCoverage data s key).partitionCoverageContextSwitches (c, o) =
      s.partitionCoverageContextSwitches (c, o) ++
        if c = key.2 ∧ o ∈ data.optimizations then samplesOf data key.1 key.2 o 0 data.repeats
        else []) ∧
    ((visitCoverage data s key).raised = false ↔ Compares data key) := by
  have hadds := visitRepeats_adds data key.1 key.2 hopts data.repeats s
  have hkept := compareIlp_kept data key.1 key.2
    (data.repeats.foldl (visitRepeat data key.1 key.2) s)
  unfold visitCoverage
  rw [if_neg (by rw [hs]; exact Bool.false_ne_true)]
  refine ⟨fun p c o => ?_, fun c o => ?_, ?_⟩
  · rw [hkept.1, hadds.counts]
    simp only [Prod.ext_iff, and_assoc]
    rfl
  · rw [hkept.2, hadds.samples]
    dsimp only
    rw [hzero]
  · have hcount : "ilp" ∈ data.optimizations →
        (data.repeats.foldl (visitRepeat data key.1 key.2) s).contextSwitches (key.1, key.2, "ilp") =
          total data key "ilp" := by
      intro hilp
      rw [hadds.counts, hzero, zero_add, if_pos ⟨rfl, rfl, hilp⟩]
      rfl
    unfold compareIlp Compares
    dsimp only
    split
    · next hdivides =>
      refine iff_of_true (hadds.raised.trans hs) ⟨hdivides.1, hdivides.2.1, ?_⟩
      exact (hcount hdivides.2.1).symm.trans_ne hdivides.2.2
    · next hdivides =>
      refine iff_of_false (by simp) fun h => hdivides ⟨h.1, h.2.1, ?_⟩
      rw [hcount h.2.1]
      exact h.2.2

theorem mem_of_mem_reached {keys : List (String × String)} {key : String × String}
    (h : key ∈ reached data keys) : key ∈ keys := by
  induction keys with
  | nil => cases h
  | cons first keys ih =>
    rcases List.mem_cons.1 h with rfl | h
    · exact List.mem_cons_self
    · split at h
      · exact List.mem_cons_of_mem _ (ih h)
      · cases h

/-- The first program and coverage either ends the run, or leaves the others as they were. -/
theorem visitCoverages_cons (hopts : data.optimizations.Nodup) {key : String × String}
    {keys : List (String × String)} (hkey : key ∉ keys) {s : State} (hs : s.raised = false)
    (hzero : ∀ key' ∈ key :: keys, ∀ o, s.contextSwitches (key'.1, key'.2, o) = 0) :
    if Compares data key then
      (visitCoverage data s key).raised = false ∧ ∀ key' ∈ keys, ∀ o,
        (visitCoverage data s key).contextSwitches (key'.1, key'.2, o) = 0
    else (key :: keys).foldl (visitCoverage data) s = visitCoverage data s key := by
  obtain ⟨hfirst, hothers⟩ := List.forall_mem_cons.1 hzero
  obtain ⟨hcounts, -, hraised⟩ := visitCoverage_spec hopts hs key hfirst
  split
  · refine ⟨hraised.2 ‹_›, fun key' hkey' o => ?_⟩
    have hne : ¬ ((key'.1, key'.2) = key ∧ o ∈ data.optimizations) := fun h => hkey (h.1 ▸ hkey')
    rw [hcounts, if_neg hne, hothers key' hkey', add_zero]
  · rw [List.foldl_cons, visitCoverages_of_raised (by simpa using mt hraised.1 ‹_›)]

/-- The counters of a run over distinct programs and coverages. -/
theorem visitCoverages_counts (hopts : data.optimizations.Nodup) {keys : List (String × String)}
    (hkeys : keys.Nodup) {s : State} (hs : s.raised = false)
    (hzero : ∀ key ∈ keys, ∀ o, s.contextSwitches (key.1, key.2, o) = 0) (key : String × String)
    (o : String) :
    (keys.foldl (visitCoverage data) s).contextSwitches (key.1, key.2, o) =
      s.contextSwitches (key.1, key.2, o) +
        if key ∈ reached data keys ∧ o ∈ data.optimizations then total data key o else 0 := by
  induction keys generalizing s with
  | nil => simp [reached]
  | cons first keys ih =>
    obtain ⟨hfirst, hkeys⟩ := List.nodup_cons.1 hkeys
    have hcons := visitCoverages_cons hopts hfirst hs hzero
    have hcounts := (visitCoverage_spec hopts hs first
      (List.forall_mem_cons.1 hzero).1).1 key.1 key.2 o
    rw [reached]
    split at hcons
    · next hcompares =>
      rw [List.foldl_cons, ih hkeys hcons.1 hcons.2, if_pos hcompares, hcounts, add_assoc]
      by_cases heq : key = first
      · subst heq
        have hnot : key ∉ reached data keys := fun h => hfirst (mem_of_mem_reached h)
        simp [hnot]
      · simp [heq]
    · next hcompares =>
      rw [hcons, if_neg hcompares, hcounts]
      by_cases heq : key = first
      · subst heq
        simp
      · simp [heq]

/-- The samples of such a run. -/
theorem visitCoverages_samples (hopts : data.optimizations.Nodup) {keys : List (String × String)}
    (hkeys : keys.Nodup) {s : State} (hs : s.raised = false)
    (hzero : ∀ key ∈ keys, ∀ o, s.contextSwitches (key.1, key.2, o) = 0) (c o : String) :
    (keys.foldl (visitCoverage data) s).partitionCoverageContextSwitches (c, o) =
      s.partitionCoverageContextSwitches (c, o) ++
        (reached data keys).flatMap fun key =>
          if c = key.2 ∧ o ∈ data.optimizations then samplesOf data key.1 key.2 o 0 data.repeats
          else [] := by
  induction keys generalizing s with
  | nil => exact (List.append_nil _).symm
  | cons key keys ih =>
    obtain ⟨hkey, hkeys⟩ := List.nodup_cons.1 hkeys
    have hcons := visitCoverages_cons hopts hkey hs hzero
    have hsamples := (visitCoverage_spec hopts hs key (List.forall_mem_cons.1 hzero).1).2.1
    rw [reached]
    split at hcons
    · next hcompares =>
      rw [List.foldl_cons, if_pos hcompares, List.flatMap_cons, ← List.append_assoc, ← hsamples]
      exact ih hkeys hcons.1 hcons.2
    · next hcompares => rw [hcons, if_neg hcompares, List.flatMap_singleton, ← hsamples]

/-- Every sample is the number of its own repeat. -/
def SamplesRight (data : Data) : Prop :=
  ∀ c o, ∀ sample ∈ (computeContextSwitches data).partitionCoverageContextSwitches (c, o),
    sample.number = crossing data sample.program c o sample.repeatDir

theorem samplesRight_iff_reached (hprograms : data.programs.Nodup) (hcoverages : data.coverages.Nodup)
    (hopts : data.optimizations.Nodup) :
    SamplesRight data ↔ ∀ key ∈ reached data (keys data), ∀ o ∈ data.optimizations,
      ∀ total ∈ RunningTotals.runningTotals (crossing data key.1 key.2 o) 0
        (visited key.2 data.repeats), total.2 = crossing data key.1 key.2 o total.1 := by
  have hkeys : (keys data).Nodup := hprograms.product hcoverages
  have hsamples : ∀ c o, (computeContextSwitches data).partitionCoverageContextSwitches (c, o) =
      (reached data (keys data)).flatMap fun key =>
        if c = key.2 ∧ o ∈ data.optimizations then samplesOf data key.1 key.2 o 0 data.repeats
        else [] :=
    fun c o => visitCoverages_samples hopts hkeys rfl (fun _ _ _ => rfl) c o
  unfold SamplesRight
  constructor
  · intro h key hkey opt hopt total htotal
    refine h key.2 opt { program := key.1, repeatDir := total.1, number := total.2 } ?_
    rw [hsamples]
    refine List.mem_flatMap.2 ⟨key, hkey, ?_⟩
    rw [if_pos ⟨rfl, hopt⟩]
    exact List.mem_map_of_mem htotal
  · intro h c o sample hsample
    rw [hsamples] at hsample
    obtain ⟨key, hkey, hsample⟩ := List.mem_flatMap.1 hsample
    split at hsample
    · next hcov =>
      obtain ⟨total, htotal, rfl⟩ := List.mem_map.1 hsample
      rw [hcov.1]
      exact h key hkey o hcov.2 total htotal
    · cases hsample

/-- The order of the repeats does not matter for where the run ends. -/
theorem reached_perm {repeats : List String} (hperm : repeats.Perm data.repeats)
    (keys : List (String × String)) :
    reached { data with repeats := repeats } keys = reached data keys := by
  have hcompares : ∀ key, Compares { data with repeats := repeats } key ↔ Compares data key := by
    intro key
    have hsum : ((visited key.2 repeats).map (crossing data key.1 key.2 "ilp")).sum =
        ((visited key.2 data.repeats).map (crossing data key.1 key.2 "ilp")).sum :=
      ((hperm.filter _).map _).sum_eq
    show _ ∧ _ ∧ ((visited key.2 repeats).map (crossing data key.1 key.2 "ilp")).sum ≠ 0 ↔ _
    rw [hsum]
    rfl
  induction keys with
  | nil => rfl
  | cons key keys ih =>
    unfold reached
    simp only [hcompares, ih]

end Run

/-! ## The averages -/

/-- Only the entry for expert knowledge is skipped. -/
theorem length_visited {cov : String} (hcov : cov ≠ "expert-knowledge") {repeats : List String}
    (hrepeats : repeats.count "no-repeat" = 1) :
    (visited cov repeats).length + 1 = repeats.length := by
  have hskipped : ∀ repeatDir, skipped cov repeatDir = (repeatDir == "no-repeat") := by
    intro repeatDir
    unfold skipped
    rw [beq_false_of_ne hcov, bne_iff_ne.2 hcov, Bool.false_and, Bool.false_or, Bool.true_and]
  have hlength := List.length_eq_countP_add_countP (· == "no-repeat") (l := repeats)
  rw [← List.count, hrepeats, List.countP_eq_length_filter] at hlength
  rw [hlength, Nat.add_comm, visited]
  simp only [hskipped, decide_not, Bool.decide_eq_true]

/-- **The averages are right**: what the second loop divides is the sum over all visited repeats, and it
divides by their number. -/
theorem averageContextSwitches_eq (data : Data) (hprograms : data.programs.Nodup)
    (hcoverages : data.coverages.Nodup) (hopts : data.optimizations.Nodup)
    (hrepeats : data.repeats.count "no-repeat" = 1) {key : String × String} {opt : String}
    (hkey : key ∈ reached data (keys data)) (hopt : opt ∈ data.optimizations)
    (hcov : key.2 ≠ "expert-knowledge") (hvisited : visited key.2 data.repeats ≠ []) :
    averageContextSwitches data (computeContextSwitches data) (key.1, key.2, opt) =
      some ((total data key opt : ℚ) / (visited key.2 data.repeats).length) := by
  have hcount : (computeContextSwitches data).contextSwitches (key.1, key.2, opt) =
      total data key opt := by
    refine (visitCoverages_counts hopts (hprograms.product hcoverages) rfl (fun _ _ _ => rfl)
      key opt).trans ?_
    exact (zero_add _).trans (if_pos ⟨hkey, hopt⟩)
  have hlength := length_visited hcov hrepeats
  have hpos : 0 < (visited key.2 data.repeats).length := List.length_pos_iff.2 hvisited
  unfold averageContextSwitches
  rw [hcount, if_neg hcov, if_neg (by omega), ← hlength]
  push_cast
  rw [add_sub_cancel_right]

/-! ## Top theorem -/

/-- **When the samples are those of single repeats**, in every order of the repeats. -/
theorem samples_right_iff (data : Data) (hprograms : data.programs.Nodup)
    (hcoverages : data.coverages.Nodup) (hopts : data.optimizations.Nodup) :
    (∀ repeats : List String, repeats.Perm data.repeats →
        SamplesRight { data with repeats := repeats }) ↔
      ∀ key ∈ reached data (keys data), ∀ o ∈ data.optimizations,
        (visited key.2 data.repeats).length ≤ 1 ∨
          ∀ repeatDir ∈ visited key.2 data.repeats, crossing data key.1 key.2 o repeatDir = 0 := by
  have hruns : ∀ repeats : List String, repeats.Perm data.repeats →
      (SamplesRight { data with repeats := repeats } ↔
        ∀ key ∈ reached data (keys data), ∀ o ∈ data.optimizations,
          ∀ total ∈ RunningTotals.runningTotals (crossing data key.1 key.2 o) 0
            (visited key.2 repeats), total.2 = crossing data key.1 key.2 o total.1) := by
    intro repeats hperm
    have hrun : SamplesRight { data with repeats := repeats } ↔ _ :=
      samplesRight_iff_reached hprograms hcoverages hopts
    rwa [reached_perm hperm] at hrun
  constructor
  · intro h key hkey o hopt
    refine RunningTotals.eq_own_iff.1 fun visited' hperm => ?_
    -- the skipped repeats can stand behind the others
    have hrepeats : (visited' ++ data.repeats.filter (skipped key.2)).Perm data.repeats :=
      (hperm.append_right _).trans (List.perm_append_comm.trans (List.filter_append_perm _ _))
    have hvisited : visited key.2 (visited' ++ data.repeats.filter (skipped key.2)) = visited' := by
      unfold visited
      rw [List.filter_append, List.filter_filter, List.filter_eq_self.2 fun repeatDir hmem =>
        (List.mem_filter.1 (hperm.mem_iff.1 hmem)).2]
      simp
    have hright := (hruns _ hrepeats).1 (h _ hrepeats) key hkey o hopt
    rwa [hvisited] at hright
  · intro h repeats hperm
    refine (hruns repeats hperm).2 fun key hkey o hopt => ?_
    exact RunningTotals.eq_own_iff.2 (h key hkey o hopt) _ (hperm.filter _)

/-- A call from `a` to `b`, and two repeats in which only `a` is secure. -/
def twoRepeats (repeats : List String) : Data where
  programs := ["snake"]
  coverages := ["25"]
  repeats := repeats
  optimizations := ["ilp", "search-based"]
  securePartition := fun _ _ _ _ => ["a"]
  insecurePartition := fun _ _ _ _ => ["b"]
  callStackEntries := fun _ => [{ caller := "a", callee := "b", callNum := 1 }]

/-- The second repeat gets the number of both. -/
theorem twoRepeats_samples :
    (computeContextSwitches (twoRepeats ["0", "1"])).partitionCoverageContextSwitches ("25", "ilp") =
        [{ program := "snake", repeatDir := "0", number := 1 },
          { program := "snake", repeatDir := "1", number := 2 }] ∧
      crossing (twoRepeats ["0", "1"]) "snake" "25" "ilp" "1" = 1 ∧
      ¬ SamplesRight (twoRepeats ["0", "1"]) := by
  refine ⟨by decide, by decide, fun h => ?_⟩
  have hsecond := h "25" "ilp" { program := "snake", repeatDir := "1", number := 2 } (by decide)
  exact absurd hsecond (by decide)

/-- A single repeat besides the one for expert knowledge. -/
theorem oneRepeat_right : SamplesRight (twoRepeats ["no-repeat", "0"]) :=
  (samples_right_iff (twoRepeats ["no-repeat", "0"]) (by decide) (by decide) (by decide)).2
    (by decide) ["no-repeat", "0"] (.refl _)

end ContextSwitchesEvalData

end Vazgen
