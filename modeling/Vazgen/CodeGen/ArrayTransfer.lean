import Vazgen.CodeGen.SGXCodeGenerator
import Vazgen.Lib.Buffer

/-!
# Arrays across the boundary

An array is pushed as `strlen` of its bytes, which leaves out the terminator.  The handler gets an
extent without one, whatever the contents are (`array_received`), and so `strlen` of it, which it
calls when it pushes the array back, reads past the end (`pushBack_undefined`).
-/

namespace Vazgen

open ParameterStack Buffer

/-- NUL-terminated contents, without the terminator. -/
structure CString where
  contents : List UInt8
  not_mem : 0 ∉ contents

namespace SGXCodeGenerator

/-! ## Algorithm -/

/-- `PushAlloc(n)`: an extent of `n` bytes, whatever these are. -/
abbrev Alloc : Type := (n : Nat) → { extent : List UInt8 // extent.length = n }

/-- What `getPushAllocStrForArray` generates:
`auto x_ext = params.PushAlloc(strlen(x)); memcpy(x_ext.As<T>(), x, strlen(x))`. -/
def pushArray (alloc : Alloc) (x : List UInt8) : Option (List UInt8) :=
  (strlen 0 x).bind fun n => memcpy (alloc n).1 x n

section Machine

variable (params : List Variable) (alloc : Alloc) (deref : List UInt8 → List UInt8)
  (vars : String → List UInt8)

/-- The slot pushed for a variable, the value of which is the bytes that it holds or points to. -/
def slotOfBytes (x : Variable) : Option (Slot SlotType (List UInt8)) :=
  if x.type.isArray then
    (pushArray alloc (vars x.name)).map fun ext => { type := slotType x.type, value := ext }
  else some (slotOf deref vars x)

/-- As `exec`, with the bytes of the arrays. -/
def execBytes (s : State (List UInt8)) : Instruction → Option (State (List UInt8))
  | .pushAlloc type varName _ =>
    (slotOfBytes alloc deref vars { type := type, name := varName }).map fun slot =>
      { s with stack := slot :: s.stack }
  | .text instr => exec params deref vars s (.text instr)
  | .pop type varName isStackPtr isNewVar =>
    exec params deref vars s (.pop type varName isStackPtr isNewVar)
  | .call result callStr => exec params deref vars s (.call result callStr)

def runBytes (l : List Instruction) (s : State (List UInt8)) : Option (State (List UInt8)) :=
  l.foldlM (execBytes params alloc deref vars) s

end Machine

/-- An array parameter and its position. -/
structure ArrayParam (f : Function) where
  index : Nat
  param : Variable
  getElem_eq : f.getParams[index]? = some param
  isArray : param.type.isArray = true

/-- The caller's variables, with a string passed for `p`. -/
def passed {f : Function} (p : ArrayParam f) (s : CString) (rest : List UInt8)
    (vars : String → List UInt8) (name : String) : List UInt8 :=
  if name = p.param.name then s.contents ++ 0 :: rest else vars name

/-- The wrapper's pushes and the handler's pops succeed, and the handler gets `buffer` for `p`.  The
pops come in the reverse order of the parameters. -/
def Received {f : Function} (wrapper handler : Function) (p : ArrayParam f) (alloc : Alloc)
    (deref : List UInt8 → List UInt8) (vars : String → List UInt8) (buffer : List UInt8) : Prop :=
  ∃ stack stores,
    runBytes wrapper.getParams alloc deref vars (request wrapper) {} = some { stack := stack } ∧
    (∀ vars', runBytes handler.getParams alloc deref vars' (request handler) { stack := stack } =
      some { stack := [], stores := stores }) ∧
    stores.reverse[p.index]? = some (paramName p.param, buffer)

/-- The handler gets the string with its terminator. -/
def Survives {f : Function} (wrapper handler : Function) (p : ArrayParam f) (s : CString)
    (alloc : Alloc) (deref : List UInt8 → List UInt8) (vars : String → List UInt8) : Prop :=
  ∃ buffer, Received wrapper handler p alloc deref vars buffer ∧ Holds 0 s.contents buffer ∧
    strlen 0 buffer = some s.contents.length

/-! ## One array -/

theorem pushArray_eq (alloc : Alloc) (s : CString) (rest : List UInt8) :
    pushArray alloc (s.contents ++ 0 :: rest) = some s.contents := by
  have hlength : strlen 0 (s.contents ++ 0 :: rest) = some s.contents.length :=
    strlen_eq_some_iff.2 ⟨s.contents, s.not_mem, rfl, rest, rfl⟩
  rw [pushArray, hlength, Option.bind_some, memcpy_eq (alloc _).2 (by simp), List.take_left]

theorem pushArray_contents (alloc : Alloc) (s : CString) : pushArray alloc s.contents = none := by
  rw [pushArray, strlen_eq_none_iff.2 s.not_mem, Option.bind_none]

/-! ## Runs -/

section Run

variable {params : List Variable} {alloc : Alloc} {deref : List UInt8 → List UInt8}
  {vars : String → List UInt8}

theorem runBytes_pushes {l : List Instruction} {xs : List Variable} (h : l.map pushed = xs.map some)
    {s s' : State (List UInt8)} :
    runBytes params alloc deref vars l s = some s' ↔
      ∃ slots, List.Forall₂ (fun x slot => slotOfBytes alloc deref vars x = some slot) xs slots ∧
        s' = { s with stack := pushAll slots s.stack } := by
  induction forall₂_pushAlloc h generalizing s with
  | nil =>
    constructor
    · rintro h
      cases h
      exact ⟨[], .nil, rfl⟩
    · rintro ⟨slots, hslots, rfl⟩
      cases hslots
      rfl
  | cons hi _ ih =>
    obtain ⟨isStackPtr, rfl⟩ := hi
    have ih := fun {s} => ih (List.cons.inj h).2 (s := s)
    unfold runBytes at ih ⊢
    rw [List.foldlM_cons, execBytes]
    constructor
    · intro h
      obtain ⟨s₁, hs₁, h⟩ := Option.bind_eq_some_iff.1 h
      obtain ⟨slot, hslot, rfl⟩ := Option.map_eq_some_iff.1 hs₁
      obtain ⟨slots, hslots, rfl⟩ := ih.1 h
      exact ⟨slot :: slots, .cons hslot hslots, rfl⟩
    · rintro ⟨_, hslots, rfl⟩
      cases hslots with
      | cons hslot hslots =>
        refine Option.bind_eq_some_iff.2 ⟨_, Option.map_eq_some_iff.2 ⟨_, hslot, rfl⟩, ?_⟩
        exact ih.2 ⟨_, hslots, rfl⟩

/-- Without pushes there is nothing to copy. -/
theorem runBytes_eq_run {l : List Instruction} (h : ∀ i ∈ l, pushed i = none)
    (s : State (List UInt8)) :
    runBytes params alloc deref vars l s = run params deref vars l s := by
  induction l generalizing s with
  | nil => rfl
  | cons i l ih =>
    have hi : execBytes params alloc deref vars s i = exec params deref vars s i := by
      cases i with
      | pushAlloc type varName isStackPtr => cases h _ List.mem_cons_self
      | text _ => rfl
      | pop _ _ _ _ => rfl
      | call _ _ => rfl
    unfold runBytes run at ih ⊢
    rw [List.foldlM_cons, List.foldlM_cons, hi]
    exact Option.bind_congr fun s' _ => ih (fun j hj => h j (List.mem_cons_of_mem i hj)) s'

/-- The wrapper leaves the slots of its parameters on the stack, the last one on top. -/
theorem runBytes_request_wrapper {wrapper f : Function} {declStr : String}
    (hwrapper : request wrapper = .text declStr ::
      (wrapperParams f).map (fun p => .pushAlloc p.type p.name false)) {s : State (List UInt8)} :
    runBytes params alloc deref vars (request wrapper) {} = some s ↔
      ∃ slots, List.Forall₂ (fun x slot => slotOfBytes alloc deref vars x = some slot)
        (wrapperParams f) slots ∧ s = { stack := slots.reverse } := by
  have hcons : runBytes params alloc deref vars (request wrapper) {} = runBytes params alloc deref vars
      ((wrapperParams f).map (fun p => .pushAlloc p.type p.name false)) {} := by
    rw [hwrapper]
    rfl
  rw [hcons, runBytes_pushes (map_pushed_wrapperParams f)]
  simp only [pushAll_eq, List.append_nil]

theorem slotOfBytes_type {x : Variable} {slot : Slot SlotType (List UInt8)}
    (h : slotOfBytes alloc deref vars x = some slot) : slot.type = slotType x.type := by
  unfold slotOfBytes at h
  split at h
  · obtain ⟨ext, -, rfl⟩ := Option.map_eq_some_iff.1 h
    rfl
  · cases h
    rfl

theorem getElem?_of_forall₂ {α β : Type} {R : α → β → Prop} {xs : List α} {ys : List β}
    (h : List.Forall₂ R xs ys) {i : Nat} {x : α} (hx : xs[i]? = some x) :
    ∃ y, ys[i]? = some y ∧ R x y := by
  induction h generalizing i with
  | nil => cases hx
  | cons hR _ ih =>
    cases i with
    | zero =>
      cases hx
      exact ⟨_, rfl, hR⟩
    | succ i => exact ih hx

theorem map_type_slots {xs : List Variable} {slots : List (Slot SlotType (List UInt8))}
    (h : List.Forall₂ (fun x slot => slotOfBytes alloc deref vars x = some slot) xs slots) :
    slots.map (·.type) = xs.map fun x => slotType x.type := by
  induction h with
  | nil => rfl
  | cons h _ ih => rw [List.map_cons, List.map_cons, ih, slotOfBytes_type h]

/-- The handler's pops take these slots. -/
theorem runBytes_request_handler {handler f : Function} {isNewReturnVal : Bool}
    (hhandler : request handler = popArguments f isNewReturnVal)
    (hparams : ∀ p ∈ handler.getParams, p.name ≠ "returnVal")
    {slots : List (Slot SlotType (List UInt8))}
    (hslots : List.Forall₂ (fun x slot => slotOfBytes alloc deref vars x = some slot)
      (wrapperParams f) slots) (vars' : String → List UInt8) :
    runBytes handler.getParams alloc deref vars' (request handler) { stack := slots.reverse } =
      some { stack := [],
             stores := (((marshalled f).map (·.2)).zip (slots.map (·.value))).reverse } := by
  obtain ⟨xs, hpopped, hnames, htypes⟩ := popped_popArguments f isNewReturnVal
  have hpops : ∀ i ∈ popArguments f isNewReturnVal, pushed i = none := by
    intro i hi
    obtain ⟨x, -, hx⟩ := List.mem_map.1 (hpopped ▸ List.mem_map_of_mem (f := popped) hi)
    cases i with
    | pushAlloc _ _ _ => cases hx
    | text _ => rfl
    | pop _ _ _ _ => rfl
    | call _ _ => rfl
  have htypes' : slots.map (·.type) = (marshalled f).map fun e => slotType e.1.type := by
    rw [map_type_slots hslots, ← map_fst_marshalled, List.map_map, Function.comp_def]
  have hlength : ((marshalled f).map (·.2)).length = (slots.map (·.value)).length := by
    simpa using (congrArg List.length htypes').symm
  have hstores : (((marshalled f).map (·.2)).zip (slots.map (·.value))).reverse =
      (xs.map (·.name)).zip (slots.reverse.map (·.value)) := by
    rw [hnames, List.map_reverse, List.map_reverse, List.zip, List.reverse_zipWith hlength]
  rw [hhandler, runBytes_eq_run hpops, hstores,
    run_pops_eq_iff hpopped (wellTyped_popArguments f hparams)]
  rw [htypes, List.map_reverse, htypes', List.map_reverse]

/-- What the handler gets for the array `p`: the string without its terminator. -/
theorem buffer_eq {f : Function} {p : ArrayParam f} {s : CString} {rest : List UInt8}
    {slots : List (Slot SlotType (List UInt8))}
    (hslots : List.Forall₂
      (fun x slot => slotOfBytes alloc deref (passed p s rest vars) x = some slot)
      (wrapperParams f) slots) :
    (((marshalled f).map (·.2)).zip (slots.map (·.value)))[p.index]? =
      some (paramName p.param, s.contents) := by
  have hname : ((marshalled f).map (·.2))[p.index]? = some (paramName p.param) := by
    have hget : (f.getParams.map fun p => (p, paramName p))[p.index]? =
        some (p.param, paramName p.param) := by
      rw [List.getElem?_map, p.getElem_eq]
      rfl
    rw [List.getElem?_map, marshalled, List.getElem?_append_left, hget]
    · rfl
    · exact (List.getElem?_eq_some_iff.1 hget).1
  have hparam : (wrapperParams f)[p.index]? = some p.param := by
    rw [wrapperParams, List.getElem?_append_left, p.getElem_eq]
    exact (List.getElem?_eq_some_iff.1 p.getElem_eq).1
  obtain ⟨slot, hslot, hpushed⟩ := getElem?_of_forall₂ hslots hparam
  have hpassed : passed p s rest vars p.param.name = s.contents ++ 0 :: rest := if_pos rfl
  rw [slotOfBytes, if_pos p.isArray, hpassed, pushArray_eq] at hpushed
  cases hpushed
  exact List.getElem?_zip_eq_some.2 ⟨hname, by rw [List.getElem?_map, hslot]; rfl⟩

end Run

/-! ## The request -/

section Request

variable {f wrapper handler : Function} {declStr : String} {isNewReturnVal : Bool}
  (hwrapper : request wrapper = .text declStr ::
    (wrapperParams f).map (fun p => .pushAlloc p.type p.name false))
  (hhandler : request handler = popArguments f isNewReturnVal)
  (hparams : ∀ p ∈ handler.getParams, p.name ≠ "returnVal") (p : ArrayParam f) (s : CString)
  (alloc : Alloc) (deref : List UInt8 → List UInt8) (rest : List UInt8)
  (vars : String → List UInt8)

include hwrapper hhandler hparams

theorem received_eq {buffer : List UInt8}
    (h : Received wrapper handler p alloc deref (passed p s rest vars) buffer) :
    buffer = s.contents := by
  obtain ⟨stack, stores, hpush, hpop, hbuffer⟩ := h
  obtain ⟨slots, hslots, hstack⟩ := (runBytes_request_wrapper hwrapper).1 hpush
  cases hstack
  have hstores := (runBytes_request_handler hhandler hparams hslots vars).symm.trans (hpop vars)
  cases hstores
  rw [List.reverse_reverse, buffer_eq hslots] at hbuffer
  cases hbuffer
  rfl

theorem not_survives :
    ¬ Survives wrapper handler p s alloc deref (passed p s rest vars) := by
  rintro ⟨buffer, hreceived, -, hlength⟩
  rw [received_eq hwrapper hhandler hparams p s alloc deref rest vars hreceived,
    strlen_eq_none_iff.2 s.not_mem] at hlength
  cases hlength

/-- Where all arrays hold strings, the string arrives without its terminator. -/
theorem received_contents
    (hstrings : ∀ x ∈ wrapperParams f, x.type.isArray = true → ∃ (t : CString) (rest' : List UInt8),
      passed p s rest vars x.name = t.contents ++ 0 :: rest') :
    Received wrapper handler p alloc deref (passed p s rest vars) s.contents := by
  have hslots : ∀ xs ⊆ wrapperParams f, ∃ slots, List.Forall₂ (fun x slot =>
      slotOfBytes alloc deref (passed p s rest vars) x = some slot) xs slots := by
    intro xs hxs
    induction xs with
    | nil => exact ⟨[], .nil⟩
    | cons x xs ih =>
      obtain ⟨slots, hslots⟩ := ih fun y hy => hxs (List.mem_cons_of_mem x hy)
      by_cases harray : x.type.isArray = true
      · obtain ⟨t, rest', ht⟩ := hstrings x (hxs List.mem_cons_self) harray
        refine ⟨{ type := slotType x.type, value := t.contents } :: slots, .cons ?_ hslots⟩
        rw [slotOfBytes, if_pos harray, ht, pushArray_eq]
        rfl
      · exact ⟨_, .cons (if_neg harray) hslots⟩
  obtain ⟨slots, hslots⟩ := hslots _ (List.Subset.refl _)
  refine ⟨_, _, (runBytes_request_wrapper hwrapper).2 ⟨slots, hslots, rfl⟩,
    runBytes_request_handler hhandler hparams hslots, ?_⟩
  rw [List.reverse_reverse]
  exact buffer_eq hslots

end Request

theorem request_handler {handler f : Function} {isNewReturnVal : Bool} {post : List Instruction}
    (hbody : handler.body = popArguments f isNewReturnVal ++ [callFunction f] ++ post) :
    request handler = popArguments f isNewReturnVal := by
  rw [request, hbody]
  exact (takeWhile_isCall post (isCall_popArguments f isNewReturnVal) rfl).1

/-- **What arrives of an array**, in both directions. -/
theorem array_received {f : Function} (p : ArrayParam f) (s : CString) (alloc : Alloc)
    (deref : List UInt8 → List UInt8) (rest : List UInt8) (vars : String → List UInt8)
    (hstrings : ∀ x ∈ wrapperParams f, x.type.isArray = true → ∃ (t : CString) (rest' : List UInt8),
      passed p s rest vars x.name = t.contents ++ 0 :: rest') :
    Received (generateEcallWrapper f) (generateEnclaveEcall f) p alloc deref
        (passed p s rest vars) s.contents ∧
      Received (generateAppFunctionWrapperInEnclave f) (generateOCall f) p alloc deref
        (passed p s rest vars) s.contents :=
  ⟨received_contents (wrapper_parts rfl).1 (request_handler (body_generateEnclaveEcall f))
      (by simp [generateEnclaveEcall]) p s alloc deref rest vars hstrings,
    received_contents (wrapper_parts rfl).1 (request_handler (body_generateOCall f))
      (by simp [generateOCall]) p s alloc deref rest vars hstrings⟩

/-- **No array survives the boundary**, in either direction. -/
theorem no_array_survives {f : Function} (p : ArrayParam f) (s : CString) (alloc : Alloc)
    (deref : List UInt8 → List UInt8) (rest : List UInt8) (vars : String → List UInt8) :
    ¬ Survives (generateEcallWrapper f) (generateEnclaveEcall f) p s alloc deref
        (passed p s rest vars) ∧
      ¬ Survives (generateAppFunctionWrapperInEnclave f) (generateOCall f) p s alloc deref
        (passed p s rest vars) :=
  ⟨not_survives (wrapper_parts rfl).1 (request_handler (body_generateEnclaveEcall f))
      (by simp [generateEnclaveEcall]) p s alloc deref rest vars,
    not_survives (wrapper_parts rfl).1 (request_handler (body_generateOCall f))
      (by simp [generateOCall]) p s alloc deref rest vars⟩

/-- `void move(snake_t *snake, char keys[], char key)` -/
def move : Function where
  getName := "move"
  getParams := [{ type := { name := "snake_t", isPtr := true }, name := "snake" },
    { type := { name := "char", isArray := true }, name := "keys" },
    { type := { name := "char" }, name := "key" }]

def moveKeys : ArrayParam move where
  index := 1
  param := { type := { name := "char", isArray := true }, name := "keys" }
  getElem_eq := rfl
  isArray := rfl

/-- `"ws"` -/
def ws : CString where
  contents := [119, 115]
  not_mem := by decide

def zeroed : Alloc := fun n => ⟨List.replicate n 0, List.length_replicate⟩

theorem move_keys_lost : ¬ Survives (generateEcallWrapper move) (generateEnclaveEcall move) moveKeys
    ws zeroed id (passed moveKeys ws [] fun _ => []) :=
  not_survives (wrapper_parts rfl).1 (request_handler (body_generateEnclaveEcall move)) (by decide)
    moveKeys ws zeroed id [] fun _ => []

example : pushArray zeroed [119, 115, 0] = some [119, 115] ∧ pushArray zeroed [119, 115] = none := by
  decide

/-! ## The response -/

theorem slotOfBytes_contents {p : Variable} (harray : p.type.isArray = true) (s : CString)
    {alloc : Alloc} {deref : List UInt8 → List UInt8} {vars : String → List UInt8}
    (hvars : vars (paramName p) = s.contents) : slotOfBytes alloc deref vars
      { type := { p.type with isPtr := false }, name := paramName p } = none := by
  rw [slotOfBytes, if_pos harray, hvars, pushArray_contents]
  rfl

theorem runBytes_response_handler {f handler : Function} {returnType : CType} {returnStr : String}
    (hhandler : response handler =
      callFunction f :: (pushResults f returnType ++ [.text returnStr])) (p : ArrayParam f)
    (s : CString) {params : List Variable} {alloc : Alloc} {deref : List UInt8 → List UInt8}
    {vars : String → List UInt8} (hvars : vars (paramName p.param) = s.contents)
    (st : State (List UInt8)) :
    runBytes params alloc deref vars (response handler) st = none := by
  have hparam : { type := { p.param.type with isPtr := false }, name := paramName p.param } ∈
      resultVars f returnType :=
    List.mem_append_right _ (List.mem_map.2 ⟨p.param, List.mem_of_getElem? p.getElem_eq, rfl⟩)
  have hpushes : ∀ st, runBytes params alloc deref vars (pushResults f returnType) st = none := by
    intro st
    refine Option.eq_none_iff_forall_ne_some.2 fun st' hst' => ?_
    obtain ⟨slots, hslots, -⟩ := (runBytes_pushes (map_pushed_pushResults f returnType)).1 hst'
    obtain ⟨i, hi⟩ := List.mem_iff_getElem?.1 hparam
    obtain ⟨slot, -, hslot⟩ := getElem?_of_forall₂ hslots hi
    rw [slotOfBytes_contents p.isArray s hvars] at hslot
    cases hslot
  rw [hhandler]
  show runBytes params alloc deref vars (pushResults f returnType ++ [.text returnStr]) st = none
  rw [runBytes, List.foldlM_append]
  show (runBytes params alloc deref vars (pushResults f returnType) st).bind _ = none
  rw [hpushes, Option.bind_none]

/-- **An array cannot be pushed back**: with the string that it got, the handler calls `strlen` on an
extent without a terminator. -/
theorem pushBack_undefined {f : Function} (p : ArrayParam f) (s : CString) {alloc : Alloc}
    {deref : List UInt8 → List UInt8} {vars : String → List UInt8}
    (hvars : vars (paramName p.param) = s.contents) (st : State (List UInt8)) :
    runBytes (generateEnclaveEcall f).getParams alloc deref vars (response (generateEnclaveEcall f))
        st = none ∧
      runBytes (generateOCall f).getParams alloc deref vars (response (generateOCall f)) st = none :=
  ⟨runBytes_response_handler (response_generateEnclaveEcall f) p s hvars st,
    runBytes_response_handler (response_generateOCall f) p s hvars st⟩

end SGXCodeGenerator

end Vazgen
