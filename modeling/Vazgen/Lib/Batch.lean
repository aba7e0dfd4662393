import Mathlib.Data.List.Basic
import Mathlib.Data.Option.Defs

/-!
# Batches

The requests of a batch are collected before any of them is carried out: each looks at one and the
same state and leaves some jobs behind.  So which jobs there are depends on which requests there are,
not on their order and not on how often they are made (`rel_collectAll`).

A machine whose steps only push such jobs runs a batch (`foldlM_eq_collectAll`).
-/

namespace Batch

variable {Opt Job State : Type}

/-- The jobs of all the requests; none when one of the requests fails. -/
def collectAll (collect : Opt → Option (List Job)) : List Opt → Option (List Job)
  | [] => some []
  | opt :: opts => (collect opt).bind fun jobs => (collectAll collect opts).map (jobs ++ ·)

/-- The same jobs, in any order and any number. -/
def Same (jobs jobs' : List Job) : Prop := ∀ job, job ∈ jobs ↔ job ∈ jobs'

theorem Same.append_left {jobs jobs' : List Job} (h : Same jobs jobs') (before : List Job) :
    Same (before ++ jobs) (before ++ jobs') := fun job => by
  rw [List.mem_append, List.mem_append, h job]

theorem Same.append_right {jobs jobs' : List Job} (h : Same jobs jobs') (after : List Job) :
    Same (jobs ++ after) (jobs' ++ after) := fun job => by
  rw [List.mem_append, List.mem_append, h job]

section Collect

variable {collect : Opt → Option (List Job)} {opt : Opt} {opts opts' : List Opt} {jobs : List Job}

theorem collectAll_cons_eq_some :
    collectAll collect (opt :: opts) = some jobs ↔
      ∃ first rest, collect opt = some first ∧ collectAll collect opts = some rest ∧
        jobs = first ++ rest := by
  rw [collectAll, Option.bind_eq_some_iff]
  constructor
  · rintro ⟨first, hfirst, h⟩
    obtain ⟨rest, hrest, rfl⟩ := Option.map_eq_some_iff.1 h
    exact ⟨first, rest, hfirst, hrest, rfl⟩
  · rintro ⟨first, rest, hfirst, hrest, rfl⟩
    exact ⟨first, hfirst, Option.map_eq_some_iff.2 ⟨rest, hrest, rfl⟩⟩

/-- A batch is collected when each of its requests is. -/
theorem exists_collectAll_iff :
    (∃ jobs, collectAll collect opts = some jobs) ↔ ∀ opt ∈ opts, ∃ js, collect opt = some js := by
  induction opts with
  | nil => exact iff_of_true ⟨[], rfl⟩ (List.forall_mem_nil _)
  | cons opt opts ih =>
    rw [List.forall_mem_cons, ← ih]
    constructor
    · rintro ⟨jobs, h⟩
      obtain ⟨first, rest, hfirst, hrest, -⟩ := collectAll_cons_eq_some.1 h
      exact ⟨⟨first, hfirst⟩, rest, hrest⟩
    · rintro ⟨⟨first, hfirst⟩, rest, hrest⟩
      exact ⟨_, collectAll_cons_eq_some.2 ⟨first, rest, hfirst, hrest, rfl⟩⟩

theorem mem_collectAll (h : collectAll collect opts = some jobs) (job : Job) :
    job ∈ jobs ↔ ∃ opt ∈ opts, ∃ js, collect opt = some js ∧ job ∈ js := by
  induction opts generalizing jobs with
  | nil =>
    cases h
    simp
  | cons opt opts ih =>
    obtain ⟨first, rest, hfirst, hrest, rfl⟩ := collectAll_cons_eq_some.1 h
    rw [List.mem_append, ih hrest, List.exists_mem_cons_iff, hfirst]
    simp

/-- **The order and the repetitions of the requests have no influence.** -/
theorem rel_collectAll (hsame : ∀ opt, opt ∈ opts ↔ opt ∈ opts') :
    Option.Rel Same (collectAll collect opts) (collectAll collect opts') := by
  have hsome : (∃ jobs, collectAll collect opts = some jobs) ↔
      ∃ jobs, collectAll collect opts' = some jobs := by
    simp only [exists_collectAll_iff, hsame]
  cases h : collectAll collect opts with
  | none =>
    cases h' : collectAll collect opts' with
    | none => exact .none
    | some jobs' =>
      obtain ⟨jobs, hjobs⟩ := hsome.2 ⟨jobs', h'⟩
      rw [h] at hjobs
      cases hjobs
  | some jobs =>
    obtain ⟨jobs', h'⟩ := hsome.1 ⟨jobs, h⟩
    rw [h']
    refine .some fun job => ?_
    rw [mem_collectAll h, mem_collectAll h']
    simp only [hsame]

end Collect

/-! ## Results that are related -/

section Rel

variable {α β γ δ : Type} {r : α → β → Prop} {x : Option α} {y : Option β}

theorem rel_bind {r' : γ → δ → Prop} {f : α → Option γ} {g : β → Option δ} (h : Option.Rel r x y)
    (hfg : ∀ a b, r a b → Option.Rel r' (f a) (g b)) : Option.Rel r' (x.bind f) (y.bind g) := by
  cases h with
  | none => exact .none
  | some hab => exact hfg _ _ hab

theorem rel_map {r' : γ → δ → Prop} {f : α → γ} {g : β → δ} (h : Option.Rel r x y)
    (hfg : ∀ a b, r a b → r' (f a) (g b)) : Option.Rel r' (x.map f) (y.map g) := by
  cases h with
  | none => exact .none
  | some hab => exact .some (hfg _ _ hab)

theorem rel_bind_same {r' : γ → δ → Prop} {f : α → Option γ} {g : α → Option δ}
    (hfg : ∀ a, Option.Rel r' (f a) (g a)) (x : Option α) : Option.Rel r' (x.bind f) (x.bind g) := by
  cases x with
  | none => exact .none
  | some a => exact hfg a

theorem rel_map_same {r' : γ → δ → Prop} {f : α → γ} {g : α → δ} (hfg : ∀ a, r' (f a) (g a))
    (x : Option α) : Option.Rel r' (x.map f) (x.map g) := by
  cases x with
  | none => exact .none
  | some a => exact .some (hfg a)

theorem map_eq_map_of_rel {f : α → γ} {g : β → γ} (h : Option.Rel r x y)
    (hfg : ∀ a b, x = some a → y = some b → r a b → f a = g b) : x.map f = y.map g := by
  cases h with
  | none => rfl
  | some hab => exact congrArg some (hfg _ _ rfl rfl hab)

end Rel

/-- **A machine runs a batch** when its steps push what they collect, and what they collect does not
depend on what has been pushed. -/
theorem foldlM_eq_collectAll {step : State → Opt → Option State}
    {collect : State → Opt → Option (List Job)} (push : State → List Job → State) {opts : List Opt}
    (hnil : ∀ s, push s [] = s)
    (happend : ∀ s jobs jobs', push (push s jobs) jobs' = push s (jobs ++ jobs'))
    (hstep : ∀ opt ∈ opts, ∀ s, step s opt = (collect s opt).map (push s))
    (hview : ∀ opt ∈ opts, ∀ s jobs, collect (push s jobs) opt = collect s opt) (s : State) :
    opts.foldlM step s = (collectAll (collect s) opts).map (push s) := by
  have hpushed : ∀ jobs, opts.foldlM step (push s jobs) =
      (collectAll (collect s) opts).map fun more => push s (jobs ++ more) := by
    intro jobs
    induction opts generalizing jobs with
    | nil =>
      rw [collectAll, Option.map_some, List.append_nil]
      rfl
    | cons opt opts ih =>
      obtain ⟨hstep, hsteps⟩ := List.forall_mem_cons.1 hstep
      obtain ⟨hview, hviews⟩ := List.forall_mem_cons.1 hview
      rw [List.foldlM_cons, hstep, hview, collectAll]
      cases hcollect : collect s opt with
      | none => rfl
      | some first =>
        rw [Option.map_some, happend]
        show opts.foldlM step _ = _
        rw [ih hsteps hviews, Option.bind_some, Option.map_map]
        simp only [Function.comp_def, List.append_assoc]
  have hstart := hpushed []
  rw [hnil] at hstart
  simpa using hstart

end Batch
