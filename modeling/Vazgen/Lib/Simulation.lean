import Mathlib.Data.List.Basic

/-!
# Machines with the same runs

A machine is a relation between states, with an event for each step.  What each step of one machine
is matched by in another, each run is matched by (`Run.map`, `Run.simulate`).

A stack machine calls and returns.  Two of them have the same runs, but for frames that the second
machine adds and that call nothing, if every frame calls in the second what it calls in the first
(`Embeds.run_iff`).
-/

namespace Simulation

section Run

variable {State State' Event Event' : Type} {step : State → Event → State → Prop}
  {step' : State' → Event' → State' → Prop}

/-- The steps of a machine, one after the other. -/
inductive Run (step : State → Event → State → Prop) : State → List Event → State → Prop
  | nil (s : State) : Run step s [] s
  | cons {s t u : State} {e : Event} {events : List Event} :
      step s e t → Run step t events u → Run step s (e :: events) u

/-- Every step has its image in the other machine, and so has every run. -/
theorem Run.map {I : State → Prop} {f : State → State'} {g : Event → Event'}
    (hstep : ∀ {s e t}, I s → step s e t → step' (f s) (g e) (f t) ∧ I t) {s t : State}
    {events : List Event} (hs : I s) (hrun : Run step s events t) :
    Run step' (f s) (events.map g) (f t) := by
  induction hrun with
  | nil s => exact .nil (f s)
  | cons hfirst _ ih =>
    obtain ⟨hfirst', ht⟩ := hstep hs hfirst
    exact .cons hfirst' (ih ht)

/-- Every step is either not seen by the other machine or the image of one of its steps. -/
theorem Run.simulate {R : State → State' → Prop} {seen : Event → Bool} {g : Event' → Event}
    (hstep : ∀ {s s' e t}, R s s' → step s e t → (seen e = false ∧ R t s') ∨
      ∃ e' t', seen e = true ∧ e = g e' ∧ step' s' e' t' ∧ R t t')
    {s t : State} {s' : State'} {events : List Event} (hs : R s s') (hrun : Run step s events t) :
    ∃ events' t', Run step' s' events' t' ∧ events.filter seen = events'.map g ∧ R t t' := by
  induction hrun generalizing s' with
  | nil s => exact ⟨[], s', .nil s', rfl, hs⟩
  | cons hfirst _ ih =>
    rcases hstep hs hfirst with ⟨hseen, ht⟩ | ⟨e', t', hseen, rfl, hfirst', ht⟩
    · obtain ⟨events', u', hrun', heq, hu⟩ := ih ht
      exact ⟨events', u', hrun', by rw [List.filter_cons_of_neg (by simp [hseen]), heq], hu⟩
    · obtain ⟨events', u', hrun', heq, hu⟩ := ih ht
      refine ⟨e' :: events', u', .cons hfirst' hrun', ?_, hu⟩
      rw [List.filter_cons_of_pos hseen, heq, List.map_cons]

end Run

/-! ## Stack machines -/

section Stack

variable {Frame Frame' : Type}

/-- What happens to a stack of frames. -/
inductive Event (Frame : Type) where
  | call (callee : Frame)
  | ret (frame : Frame)

def Event.frame : Event Frame → Frame
  | call f | ret f => f

def Event.map (g : Frame → Frame') : Event Frame → Event Frame'
  | call f => call (g f)
  | ret f => ret (g f)

/-- The frame on top calls, or returns. -/
inductive StackStep (Calls : Frame → Frame → Prop) :
    List Frame → Event Frame → List Frame → Prop
  | call {caller callee : Frame} {rest : List Frame} :
      Calls caller callee →
      StackStep Calls (caller :: rest) (.call callee) (callee :: caller :: rest)
  | ret {frame : Frame} {rest : List Frame} :
      StackStep Calls (frame :: rest) (.ret frame) rest

/-- The frames of one machine are placed into another one, and call there what they have called.
All other frames of the second machine, for which `own` is false, call nothing. -/
structure Embeds (Calls : Frame → Frame → Prop) (Calls' : Frame' → Frame' → Prop)
    (I : Frame → Prop) (place : Frame → Frame') (own : Frame' → Bool) : Prop where
  keep : ∀ f c, I f → Calls f c → I c
  own_place : ∀ f, I f → own (place f) = true
  forward : ∀ f c, I f → Calls f c → Calls' (place f) (place c)
  backward : ∀ f c', I f → Calls' (place f) c' → own c' = true → ∃ c, Calls f c ∧ c' = place c
  leaf : ∀ f' c', own f' = false → ¬ Calls' f' c'

variable {Calls : Frame → Frame → Prop} {Calls' : Frame' → Frame' → Prop} {I : Frame → Prop}
  {place : Frame → Frame'} {own : Frame' → Bool}

/-- The stack of the second machine is the placed one, with at most one frame added on top. -/
inductive Placed (I : Frame → Prop) (place : Frame → Frame') (own : Frame' → Bool) :
    List Frame' → List Frame → Prop
  | same {stack : List Frame} : (∀ f ∈ stack, I f) → Placed I place own (stack.map place) stack
  | added {f' : Frame'} {stack : List Frame} : own f' = false → (∀ f ∈ stack, I f) →
      Placed I place own (f' :: stack.map place) stack

theorem Placed.filter_eq (h : Embeds Calls Calls' I place own) {stack' : List Frame'}
    {stack : List Frame} (hstack : Placed I place own stack' stack) :
    stack'.filter own = stack.map place := by
  have hall : ∀ stack : List Frame, (∀ f ∈ stack, I f) →
      (stack.map place).filter own = stack.map place := by
    intro stack hstack
    refine List.filter_eq_self.2 fun f' hf' => ?_
    obtain ⟨f, hf, rfl⟩ := List.mem_map.1 hf'
    exact h.own_place f (hstack f hf)
  cases hstack with
  | same hI => exact hall stack hI
  | added hown hI => rw [List.filter_cons_of_neg (by simp [hown]), hall stack hI]

/-- A step of the second machine concerns an added frame, or is the image of a step of the first. -/
theorem Placed.step (h : Embeds Calls Calls' I place own) {s' t' : List Frame'} {s : List Frame}
    {e' : Event Frame'} (hs : Placed I place own s' s) (hstep : StackStep Calls' s' e' t') :
    (own e'.frame = false ∧ Placed I place own t' s) ∨
      ∃ e t, own e'.frame = true ∧ e' = e.map place ∧ StackStep Calls s e t ∧
        Placed I place own t' t := by
  cases hs with
  | added hown hI =>
    cases hstep with
    | call hcalls => exact absurd hcalls (h.leaf _ _ hown)
    | ret => exact .inl ⟨hown, .same hI⟩
  | same hI =>
    cases s with
    | nil => cases hstep
    | cons f stack =>
      rw [List.map_cons] at hstep
      have hf := hI f List.mem_cons_self
      cases hstep with
      | @call _ c' _ hcalls =>
        cases hown : own c' with
        | false => exact .inl ⟨hown, .added hown hI⟩
        | true =>
          obtain ⟨c, hc, rfl⟩ := h.backward f c' hf hcalls hown
          have hI' : ∀ g ∈ c :: f :: stack, I g := List.forall_mem_cons.2 ⟨h.keep f c hf hc, hI⟩
          exact .inr ⟨.call c, c :: f :: stack, hown, rfl, .call hc, Placed.same hI'⟩
      | ret =>
        refine .inr ⟨.ret f, stack, h.own_place f hf, rfl, .ret, .same ?_⟩
        exact (List.forall_mem_cons.1 hI).2

/-- A step of the first machine has its image in the second. -/
theorem Embeds.step (h : Embeds Calls Calls' I place own) {s t : List Frame} {e : Event Frame}
    (hs : ∀ f ∈ s, I f) (hstep : StackStep Calls s e t) :
    StackStep Calls' (s.map place) (e.map place) (t.map place) ∧ ∀ f ∈ t, I f := by
  cases hstep with
  | @call f c _ hcalls =>
    have hf := hs f List.mem_cons_self
    exact ⟨.call (h.forward f c hf hcalls), List.forall_mem_cons.2 ⟨h.keep f c hf hcalls, hs⟩⟩
  | ret => exact ⟨.ret, (List.forall_mem_cons.1 hs).2⟩

/-- **Two stack machines with the same runs.**  Every run of the first is one of the second, and
every run of the second becomes one of the first when the added frames are left out. -/
theorem Embeds.run_iff (h : Embeds Calls Calls' I place own) {s : List Frame} (hs : ∀ f ∈ s, I f) :
    (∀ events t, Run (StackStep Calls) s events t →
      Run (StackStep Calls') (s.map place) (events.map (Event.map place)) (t.map place)) ∧
    ∀ events' t', Run (StackStep Calls') (s.map place) events' t' →
      ∃ events t, Run (StackStep Calls) s events t ∧
        events'.filter (fun e => own e.frame) = events.map (Event.map place) ∧
        t'.filter own = t.map place := by
  constructor
  · exact fun events t hrun => hrun.map (I := fun s => ∀ f ∈ s, I f) (f := List.map place)
      (g := Event.map place) (fun hs hstep => h.step hs hstep) hs
  · intro events' t' hrun
    obtain ⟨events, t, hrun, hevents, ht⟩ :=
      hrun.simulate (R := Placed I place own) (fun hs hstep => hs.step h hstep) (.same hs)
    exact ⟨events, t, hrun, hevents, ht.filter_eq h⟩

end Stack

end Simulation
