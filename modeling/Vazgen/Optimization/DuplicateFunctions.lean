import Vazgen.Optimization.OptimizerRun

/-!
# Where DUPLICATE_FUNCTIONS looks for the moved functions

The enumerator FUNCTIONS_MOVE_TO is used as a position among the optimisation objects, so
DUPLICATE_FUNCTIONS takes the first two objects, whatever they are.  These are the two of
FUNCTIONS_MOVE_TO exactly if it was the first optimisation of all; an earlier one in between the two
makes the assertions fail.

**`readsMovedFunctions_iff`**: which lists of optimisations read the right objects.
-/

namespace Vazgen

variable {F G V N R : Type}

namespace PartitionOptimizer

section Duplicate

variable [DecidableEq F] [DecidableEq G] [Zero R] [One R] [Add R] [Neg R] [Sub R] [Mul R] [SMul ℤ R]
  [DecidableEq R] [LT R] [DecidableLT R] [LE R] [DecidableLE R] {env : Environment F G V N R}
  {opt : Optimization} {opts : List Optimization} {side : Side} {s s' t : State F G}
  {secure insecure : Partition F G}

/-! ## The objects that were pushed first stay first -/

theorem prefix_of_runOptimizer (h : runOptimizer env opt side s = some s') :
    s.optimizations <+: s'.optimizations := by
  obtain ⟨obj, -, rfl⟩ | ⟨-, P, Q, -, rfl⟩ := runOptimizer_cases h
  · exact List.prefix_append _ _
  · exact List.prefix_append _ _

theorem prefix_of_runOptimizations (h : opts.foldlM (runOptimization env) s = some t) :
    s.optimizations <+: t.optimizations :=
  runOptimizations_induct (P := fun t => s.optimizations <+: t.optimizations)
    (fun _ _ _ _ _ hs hrun => hs.trans (prefix_of_runOptimizer hrun)) List.prefix_rfl h

/-- Only FUNCTIONS_MOVE_TO leaves an object of its own kind. -/
theorem object_of_runOptimizer (hopt : opt ≠ .functionsMoveTo)
    (h : runOptimizer env opt side s = some s') :
    ∃ obj, s'.optimizations = s.optimizations ++ [obj] ∧ ∀ side fs, obj ≠ .functionsMoveTo side fs := by
  obtain ⟨obj, hobj, rfl⟩ | ⟨-, P, Q, -, rfl⟩ := runOptimizer_cases h
  · refine ⟨obj, rfl, ?_⟩
    cases hobj with
    | functionsMoveTo => exact absurd rfl hopt
    | globalsMoveTo => nofun
    | duplicateFunctions => nofun
    | staticAnalysis => nofun
    | ilp => nofun
  · exact ⟨.kernighanLin, rfl, nofun⟩

/-- FUNCTIONS_MOVE_TO leaves two objects, for the secure and for the insecure partition. -/
theorem objects_of_functionsMoveTo (h : runOptimization env s .functionsMoveTo = some t) :
    ∃ secureFs insecureFs, t.optimizations = s.optimizations ++
      [.functionsMoveTo .secure secureFs, .functionsMoveTo .insecure insecureFs] := by
  obtain ⟨s', hs', h⟩ := Option.bind_eq_some_iff.1 h
  obtain ⟨secureFs, -, rfl⟩ := Option.map_eq_some_iff.1 hs'
  obtain ⟨insecureFs, -, rfl⟩ := Option.map_eq_some_iff.1 h
  exact ⟨secureFs, insecureFs, List.append_assoc _ _ _⟩

/-! ## Which objects are read -/

/-- DUPLICATE_FUNCTIONS finds the two objects of FUNCTIONS_MOVE_TO at the positions it uses, no
assertion fails, and it collects the functions that both move. -/
def ReadsMovedFunctions (env : Environment F G V N R) (s : State F G) : Prop :=
  ∃ secureFs insecureFs : Finset F,
    s.optimizations[0]? = some (.functionsMoveTo .secure secureFs) ∧
    s.optimizations[1]? = some (.functionsMoveTo .insecure insecureFs) ∧
    runOptimization env s .duplicateFunctions =
      some (s.push (.duplicateFunctions (secureFs ∩ insecureFs)))

/-- A run over `opts` comes to a DUPLICATE_FUNCTIONS with the state `s`. -/
def Reaches (env : Environment F G V N R) (secure insecure : Partition F G)
    (opts : List Optimization) (s : State F G) : Prop :=
  ∃ before after, opts = before ++ .duplicateFunctions :: after ∧
    before.foldlM (runOptimization env)
      { securePartition := secure, insecurePartition := insecure } = some s

theorem readsMovedFunctions_of_prefix {secureFs insecureFs : Finset F}
    (h : [.functionsMoveTo .secure secureFs, .functionsMoveTo .insecure insecureFs] <+:
      s.optimizations) : ReadsMovedFunctions env s := by
  obtain ⟨rest, hrest⟩ := h
  refine ⟨secureFs, insecureFs, by rw [← hrest]; rfl, by rw [← hrest]; rfl, ?_⟩
  have hrun : runDuplicateFunctions s =
      some (s.push (.duplicateFunctions (DuplicateFunctionsOptimization.run secureFs insecureFs))) := by
    unfold runDuplicateFunctions
    rw [← hrest]
    rfl
  unfold runOptimization runOptimizer
  dsimp only
  rw [hrun, Option.bind_some, DuplicateFunctionsOptimization.run, Finset.filter_mem_eq_inter]

/-- Behind another first optimisation an assertion fails. -/
theorem Reaches.fails (h : Reaches env secure insecure opts s)
    (hfirst : opts.head? ≠ some .functionsMoveTo) :
    runOptimization env s .duplicateFunctions = none := by
  have hnone : (∀ side fs, s.optimizations[0]? ≠ some (.functionsMoveTo side fs)) →
      runOptimization env s .duplicateFunctions = none := by
    intro hread
    have hdup : runDuplicateFunctions s = none := by
      unfold runDuplicateFunctions
      split
      · next heq _ => exact absurd heq (hread _ _)
      · rfl
    show (runDuplicateFunctions s).bind _ = none
    rw [hdup]
    rfl
  obtain ⟨before, after, rfl, hrun⟩ := h
  refine hnone fun side fs hread => ?_
  cases before with
  | nil =>
    cases hrun
    cases hread
  | cons first before =>
    rw [List.cons_append, List.head?_cons, ne_eq, Option.some_inj] at hfirst
    obtain ⟨t, ht, hrest⟩ := Option.bind_eq_some_iff.1 hrun
    obtain ⟨s', hs', hmore⟩ := runOptimization_cases ht
    obtain ⟨obj, hobj, hne⟩ := object_of_runOptimizer hfirst hs'
    have hsecond : s'.optimizations <+: t.optimizations := by
      obtain ⟨-, hmore⟩ | ⟨-, -, rfl⟩ := hmore
      · exact prefix_of_runOptimizer hmore
      · exact List.prefix_rfl
    rw [hobj] at hsecond
    obtain ⟨rest, heq⟩ := hsecond.trans (prefix_of_runOptimizations hrest)
    rw [← heq] at hread
    exact hne _ _ (Option.some.inj hread)

/-- The first optimisation decides what is read. -/
theorem Reaches.reads_iff (h : Reaches env secure insecure opts s) :
    ReadsMovedFunctions env s ↔ opts.head? = some .functionsMoveTo := by
  constructor
  · rintro ⟨_, _, -, -, hsome⟩
    by_contra hfirst
    rw [h.fails hfirst] at hsome
    cases hsome
  · intro hfirst
    obtain ⟨before, after, rfl, hrun⟩ := h
    cases before with
    | nil => cases hfirst
    | cons first before =>
      cases hfirst
      obtain ⟨t, ht, hrest⟩ := Option.bind_eq_some_iff.1 hrun
      obtain ⟨secureFs, insecureFs, hobjs⟩ := objects_of_functionsMoveTo ht
      exact readsMovedFunctions_of_prefix (hobjs ▸ prefix_of_runOptimizations hrest)

theorem Reaches.run_eq_none (h : Reaches env secure insecure opts s)
    (hfirst : opts.head? ≠ some .functionsMoveTo) : run env secure insecure opts = none := by
  have hfails := h.fails hfirst
  obtain ⟨before, after, rfl, hrun⟩ := h
  unfold run
  rw [List.foldlM_append, hrun]
  show ((List.cons Optimization.duplicateFunctions after).foldlM (runOptimization env) s).map _ = none
  rw [List.foldlM_cons, hfails]
  rfl

/-- DUPLICATE_FUNCTIONS is reached where nothing else stops the run. -/
theorem exists_reaches (hready : Ready env secure insecure) (hopts : .optNum ∉ opts)
    (hmem : .duplicateFunctions ∈ opts) : ∃ s, Reaches env secure insecure opts s := by
  obtain ⟨before, after, rfl, hnot⟩ := List.eq_append_cons_of_mem hmem
  have hsupported : ∀ opt ∈ before, Supported opt := fun opt hopt =>
    ⟨fun heq => hnot (heq ▸ hopt), fun heq => hopts (heq ▸ List.mem_append_left _ hopt)⟩
  obtain ⟨s, hs, -⟩ := exists_runOptimizations hready hsupported (collected_start hready)
  exact ⟨s, before, after, rfl, hs⟩

/-- **Which lists of optimisations read the right objects**: those that start with
FUNCTIONS_MOVE_TO, or never come to a DUPLICATE_FUNCTIONS. -/
theorem readsMovedFunctions_iff (env : Environment F G V N R) (secure insecure : Partition F G)
    (opts : List Optimization) :
    ((∀ s, Reaches env secure insecure opts s → ReadsMovedFunctions env s) ↔
      opts.head? = some .functionsMoveTo ∨ ∀ s, ¬ Reaches env secure insecure opts s) ∧
    (Ready env secure insecure → .optNum ∉ opts →
      ((∀ s, Reaches env secure insecure opts s → ReadsMovedFunctions env s) ↔
        opts.head? = some .functionsMoveTo ∨ .duplicateFunctions ∉ opts)) := by
  have hreaches : (∀ s, Reaches env secure insecure opts s → ReadsMovedFunctions env s) ↔
      opts.head? = some .functionsMoveTo ∨ ∀ s, ¬ Reaches env secure insecure opts s := by
    constructor
    · intro h
      by_cases hex : ∃ s, Reaches env secure insecure opts s
      · obtain ⟨s, hs⟩ := hex
        exact .inl (hs.reads_iff.1 (h s hs))
      · exact .inr (not_exists.1 hex)
    · rintro (hfirst | hnone) s hs
      · exact hs.reads_iff.2 hfirst
      · exact absurd hs (hnone s)
  refine ⟨hreaches, fun hready hopts => hreaches.trans (or_congr_right ?_)⟩
  constructor
  · intro hnone hmem
    obtain ⟨s, hs⟩ := exists_reaches hready hopts hmem
    exact hnone s hs
  · rintro hnot s ⟨before, after, rfl, -⟩
    exact hnot (List.mem_append_right _ List.mem_cons_self)

end Duplicate

/-- Started with FUNCTIONS_MOVE_TO, the chain reads the right objects. -/
theorem chain_readsMovedFunctions : ∃ secure insecure,
    Partitioner.partition chainModule chainPDG 1 [workAnnotated] = some (secure, insecure) ∧
      ∀ s, Reaches chainEnvironment secure insecure
          [.functionsMoveTo, .globalsMoveTo, .duplicateFunctions] s →
        ReadsMovedFunctions chainEnvironment s := by
  obtain ⟨secure, insecure, h⟩ := chain_partition
  have hready : Ready chainEnvironment secure insecure :=
    ready_of_partition h chain_functionsIn (fun _ _ _ => rfl) (by decide)
  exact ⟨secure, insecure, h, ((readsMovedFunctions_iff chainEnvironment secure insecure _).2 hready
    (by decide)).2 (.inl rfl)⟩

/-- With GLOBALS_MOVE_TO in front of it, FUNCTIONS_MOVE_TO is not found, and the run fails. -/
theorem chain_globals_first : ∃ secure insecure s,
    Partitioner.partition chainModule chainPDG 1 [workAnnotated] = some (secure, insecure) ∧
      Reaches chainEnvironment secure insecure
        [.globalsMoveTo, .functionsMoveTo, .duplicateFunctions] s ∧
      ¬ ReadsMovedFunctions chainEnvironment s ∧
      run chainEnvironment secure insecure
        [.globalsMoveTo, .functionsMoveTo, .duplicateFunctions] = none := by
  obtain ⟨secure, insecure, h⟩ := chain_partition
  have hready : Ready chainEnvironment secure insecure :=
    ready_of_partition h chain_functionsIn (fun _ _ _ => rfl) (by decide)
  have hfirst : [Optimization.globalsMoveTo, .functionsMoveTo, .duplicateFunctions].head? ≠
      some .functionsMoveTo := by decide
  obtain ⟨s, hs⟩ : ∃ s, Reaches chainEnvironment secure insecure
      [.globalsMoveTo, .functionsMoveTo, .duplicateFunctions] s :=
    exists_reaches hready (by decide) (by decide)
  exact ⟨secure, insecure, s, h, hs, fun hread => hfirst (hs.reads_iff.1 hread),
    hs.run_eq_none hfirst⟩

end PartitionOptimizer

end Vazgen
