import Mathlib.Data.List.Nodup
import Vazgen.CodeGen.Statements

/-!
# The local variables of the generated bodies

A body is well formed if its variables are declared before they are used, and once, and if it ends
with a `return` exactly if its function returns something.

The handlers of OCALLs never are: their last statement lacks the `return`.  Everything else depends
on the function (`bodiesWellFormed_iff`).
-/

namespace Vazgen

open Scoping

abbrev InScope (scope : List String) (events : List (Event String String)) : Prop :=
  DeclaredBeforeUse (· = ·) scope events

namespace GeneratedFunction

def paramNames (g : GeneratedFunction) : List String := g.function.getParams.map (·.name)

def events (g : GeneratedFunction) : List (Event String String) :=
  g.statements.flatMap Statement.events

def endsWithReturn (g : GeneratedFunction) : Bool := g.statements.getLast?.any Statement.isReturn

structure WellFormed (g : GeneratedFunction) : Prop where
  inScope : InScope g.paramNames g.events
  once : (g.paramNames ++ declared g.events).Nodup
  returns : g.endsWithReturn = true ↔ g.function.getReturnType.isVoid = false

theorem endsWithReturn_eq {g : GeneratedFunction} (l : List Statement) (last : Statement)
    {isReturn : Bool} (h : g.statements = l ++ [last]) (hlast : last.isReturn = isReturn) :
    g.endsWithReturn = isReturn := by
  rw [endsWithReturn, h, List.getLast?_concat, Option.any_some, hlast]

end GeneratedFunction

namespace SGXCodeGenerator

/-- The bodies that the generator produces. -/
def generatedBodies (enclaveFunctions appFunctions : List NamedSignature) :
    List GeneratedFunction :=
  (enclaveFunctions.flatMap fun f =>
      [enclaveEcall f.toFunction, ecallWrapper f.toFunction,
        enclaveFunctionInDriver f.toSignature]) ++
    appFunctions.flatMap fun f =>
      [oCall f.toFunction, appFunctionWrapperInEnclave f.toFunction,
        appFunctionInEnclave f.toSignature]

def BodiesWellFormed (enclaveFunctions appFunctions : List NamedSignature) : Prop :=
  ∀ g ∈ generatedBodies enclaveFunctions appFunctions, g.WellFormed

/-- No parameter has the name of a variable that the wrapper declares. -/
structure NamesFree (f : Function) : Prop where
  params : "params" ∉ f.getParams.map (·.name)
  status : "status" ∉ f.getParams.map (·.name)
  ext : ∀ x ∈ wrapperParams f, x.type.isArray = true →
    x.name ++ "_ext" ∉ f.getParams.map (·.name)

/-! ## Names -/

theorem append_ne {suffix name : String} (h : ¬ suffix.toList <:+ name.toList) (s : String) :
    s ++ suffix ≠ name := by
  rintro rfl
  rw [String.toList_append] at h
  exact h (List.suffix_append _ _)

theorem ext_ne_paramName (s : String) (p : Variable) : s ++ "_ext" ≠ paramName p := by
  intro h
  have hlast := congrArg (fun s : String => s.toList.getLast?) h
  simp [paramName, String.toList_append] at hlast

/-- The variables that the pushes of `xs` declare. -/
def extNames (xs : List Variable) : List String :=
  (xs.filter (·.type.isArray)).map fun x => x.name ++ "_ext"

theorem mem_extNames {xs : List Variable} {name : String} :
    name ∈ extNames xs ↔ ∃ x ∈ xs, x.type.isArray = true ∧ x.name ++ "_ext" = name := by
  simp [extNames, and_assoc]

theorem forall_mem_extNames {xs : List Variable} {P : String → Prop} :
    (∀ name ∈ extNames xs, P name) ↔ ∀ x ∈ xs, x.type.isArray = true → P (x.name ++ "_ext") := by
  simp only [mem_extNames, forall_exists_index, and_imp]
  constructor
  · intro h x hx harray
    exact h _ x hx harray rfl
  · rintro h _ x hx harray rfl
    exact h x hx harray

theorem nodup_extNames {xs : List Variable} (h : (xs.map (·.name)).Nodup) :
    (extNames xs).Nodup := by
  have hsublist : ((xs.filter (·.type.isArray)).map (·.name)).Nodup :=
    h.sublist (List.filter_sublist.map _)
  have hext := hsublist.map (f := fun name => name ++ "_ext") fun a b h =>
    (String.append_left_inj _).1 h
  rwa [List.map_map] at hext

/-! ## Pushes, pops and calls -/

section Statements

variable {scope : List String}

theorem inScope_pushes {xs : List Variable} {isStackPtr : Bool} (hparams : "params" ∈ scope)
    (hxs : ∀ x ∈ xs, x.name ∈ scope) :
    InScope scope
      ((xs.map fun x => Statement.pushAlloc x.type x.name isStackPtr).flatMap Statement.events) := by
  rw [List.flatMap_map]
  refine declaredBeforeUse_flatMap fun x hx => ?_
  have hname := hxs x hx
  cases harray : x.type.isArray with
  | true => simp [Statement.events, DeclaredBeforeUse, harray, hparams, hname]
  | false => simp [Statement.events, DeclaredBeforeUse, harray, hparams, hname]

theorem declared_pushes (xs : List Variable) (isStackPtr : Bool) :
    declared ((xs.map fun x => Statement.pushAlloc x.type x.name isStackPtr).flatMap
      Statement.events) = extNames xs := by
  induction xs with
  | nil => rfl
  | cons x xs ih =>
    rw [List.map_cons, List.flatMap_cons, declared_append, ih]
    unfold extNames
    cases harray : x.type.isArray with
    | true => simp [Statement.events, declared, harray]
    | false => simp [Statement.events, declared, harray]

theorem inScope_pops {xs : List Variable} {isStackPtr isNewVar : Bool}
    (hparams : "params" ∈ scope) (hxs : isNewVar = false → ∀ x ∈ xs, x.name ∈ scope) :
    InScope scope
      ((xs.map fun x => Statement.pop x.type x.name isStackPtr isNewVar).flatMap
        Statement.events) := by
  rw [List.flatMap_map]
  refine declaredBeforeUse_flatMap fun x hx => ?_
  cases isNewVar with
  | true => simp [Statement.events, DeclaredBeforeUse, hparams]
  | false => simp [Statement.events, DeclaredBeforeUse, hparams, hxs rfl x hx]

theorem declared_pops (xs : List Variable) (isStackPtr isNewVar : Bool) :
    declared ((xs.map fun x => Statement.pop x.type x.name isStackPtr isNewVar).flatMap
      Statement.events) = if isNewVar then xs.map (·.name) else [] := by
  rw [List.flatMap_map, declared_flatMap]
  cases isNewVar with
  | true => exact List.map_eq_flatMap.symm
  | false => exact List.flatMap_eq_nil_iff.2 fun x _ => rfl

end Statements

/-! ## Handlers -/

section Handler

variable {f : Function}

/-- What a handler pops into after `returnVal`, as variables of its own. -/
def argumentVars (f : Function) : List Variable :=
  f.getParams.reverse.map fun p => { type := p.type, name := paramName p }

theorem map_name_argumentVars (f : Function) :
    (argumentVars f).map (·.name) = (f.getParams.map paramName).reverse := by
  simp [argumentVars, Function.comp_def]

theorem flatMap_handlerStatements (f : Function) (isNewReturnVal : Bool) (returnType : CType)
    (last : Statement) :
    (handlerStatements f isNewReturnVal returnType last).flatMap Statement.events =
      (if f.isVoidReturn then [] else
          [.use "params", if isNewReturnVal then .declare "returnVal" else .use "returnVal"]) ++
        (((argumentVars f).map fun x => Statement.pop x.type x.name true true).flatMap
            Statement.events ++
          ((f.getParams.map paramName ++ if f.isVoidReturn then [] else ["returnVal"]).map .use ++
            (((resultVars f returnType).map fun x =>
                Statement.pushAlloc x.type x.name true).flatMap Statement.events ++
              last.events))) := by
  unfold handlerStatements popArgumentStatements callStatement pushResultStatements argumentVars
    resultVars
  split <;> simp [Statement.events, List.flatMap_map, Function.comp_def]

/-- What a handler declares, apart from its parameters. -/
theorem declared_handlerStatements {last : Statement} (hlast : last.events = [])
    (isNewReturnVal : Bool) (returnType : CType) :
    declared ((handlerStatements f isNewReturnVal returnType last).flatMap Statement.events) =
      (if !f.isVoidReturn && isNewReturnVal then ["returnVal"] else []) ++
        ((f.getParams.map paramName).reverse ++ extNames (resultVars f returnType)) := by
  rw [flatMap_handlerStatements, hlast, List.append_nil]
  simp only [declared_append, declared_map_use, declared_pops, declared_pushes, List.nil_append,
    if_true, map_name_argumentVars]
  cases f.isVoidReturn <;> cases isNewReturnVal <;> rfl

theorem mem_resultVars_name {returnType : CType} {x : Variable} (hx : x ∈ resultVars f returnType) :
    (f.isVoidReturn = false ∧ x.name = "returnVal") ∨ x.name ∈ f.getParams.map paramName := by
  rcases List.mem_append.1 hx with hx | hx
  · split at hx
    · cases hx
    · next h =>
      rw [List.mem_singleton.1 hx]
      exact .inl ⟨Bool.eq_false_of_not_eq_true h, rfl⟩
  · obtain ⟨p, hp, rfl⟩ := List.mem_map.1 hx
    exact .inr (List.mem_map_of_mem hp)

/-- A handler that declares its `returnVal` uses only what it has declared. -/
theorem handler_inScope {scope : List String} {last : Statement} (hlast : last.events = [])
    {isNewReturnVal : Bool} (returnType : CType) (hparams : "params" ∈ scope)
    (hnew : f.isVoidReturn = false → isNewReturnVal = true) :
    InScope scope
      ((handlerStatements f isNewReturnVal returnType last).flatMap Statement.events) := by
  have hreturn : InScope scope (if f.isVoidReturn then [] else
      [.use "params", if isNewReturnVal then .declare "returnVal" else .use "returnVal"]) := by
    cases hvoid : f.isVoidReturn with
    | true => trivial
    | false => simp [hnew hvoid, DeclaredBeforeUse, hparams]
  have hdeclared : ∀ name, (f.isVoidReturn = false ∧ name = "returnVal") ∨
      name ∈ f.getParams.map paramName →
      name ∈ scope ++ declared (if f.isVoidReturn then [] else
          [Event.use "params",
            if isNewReturnVal then .declare "returnVal" else .use "returnVal"]) ++
        (f.getParams.map paramName).reverse := by
    rintro name (⟨hvoid, rfl⟩ | hname)
    · simp [hvoid, hnew hvoid, declared]
    · exact List.mem_append_right _ (List.mem_reverse.2 hname)
  rw [flatMap_handlerStatements, hlast, List.append_nil]
  refine declaredBeforeUse_append.2 ⟨hreturn, declaredBeforeUse_append.2 ⟨?_,
    declaredBeforeUse_append.2 ⟨?_, ?_⟩⟩⟩
  · exact inScope_pops (List.mem_append_left _ hparams) fun h => Bool.noConfusion h
  · rw [declared_pops, if_pos rfl, map_name_argumentVars]
    refine declaredBeforeUse_of_used fun name hname => ⟨name, hdeclared name ?_, rfl⟩
    rw [used_map_use] at hname
    rcases List.mem_append.1 hname with hname | hname
    · exact .inr hname
    · cases hvoid : f.isVoidReturn with
      | true => simp [hvoid] at hname
      | false => exact .inl ⟨rfl, by simpa [hvoid] using hname⟩
  · rw [declared_pops, if_pos rfl, map_name_argumentVars]
    refine inScope_pushes ?_ fun x hx => ?_
    · simp [hparams]
    · exact List.mem_append_left _ (hdeclared _ (mem_resultVars_name hx))

theorem map_name_resultVars_nodup (hnames : (f.getParams.map (·.name)).Nodup)
    (returnType : CType) : ((resultVars f returnType).map (·.name)).Nodup := by
  have hperm : ((resultVars f returnType).map (·.name)).Perm ((marshalled f).map (·.2)) := by
    unfold resultVars marshalled
    rw [List.map_append, List.map_append]
    refine List.perm_append_comm.trans (List.Perm.of_eq ?_)
    split <;> simp [Function.comp_def]
  exact hperm.nodup_iff.2 (nodup_marshalled hnames)

theorem nodup_handlerVars (hnames : (f.getParams.map (·.name)).Nodup) (returnType : CType) :
    ((f.getParams.map paramName).reverse ++ extNames (resultVars f returnType)).Nodup := by
  refine List.nodup_append.2 ⟨List.nodup_reverse.2 (nodup_params hnames),
    nodup_extNames (map_name_resultVars_nodup hnames returnType), ?_⟩
  rintro name hname _ hname' rfl
  obtain ⟨p, -, rfl⟩ := List.mem_map.1 (List.mem_reverse.1 hname)
  obtain ⟨x, -, -, hx⟩ := mem_extNames.1 hname'
  exact ext_ne_paramName x.name p hx

theorem ne_of_mem_handlerVars {returnType : CType} {name fixed : String}
    (hname : name ∈ (f.getParams.map paramName).reverse ++ extNames (resultVars f returnType))
    (hfixed : fixed ∈ ["context", "params", "returnVal"]) : name ≠ fixed := by
  have hparam : ∀ fixed ∈ ["context", "params", "returnVal"],
      ¬ "_param".toList <:+ fixed.toList := by decide
  have hext : ∀ fixed ∈ ["context", "params", "returnVal"],
      ¬ "_ext".toList <:+ fixed.toList := by decide
  rcases List.mem_append.1 hname with hname | hname
  · obtain ⟨p, -, rfl⟩ := List.mem_map.1 (List.mem_reverse.1 hname)
    exact append_ne (hparam fixed hfixed) p.name
  · obtain ⟨x, -, -, rfl⟩ := mem_extNames.1 hname
    exact append_ne (hext fixed hfixed) x.name

/-- The names that a handler declares are distinct, and they are not those of its parameters. -/
theorem handler_once {last : Statement} (hlast : last.events = []) (isNewReturnVal : Bool)
    (returnType : CType) (hnames : (f.getParams.map (·.name)).Nodup) :
    (["context", "params"] ++ declared ((handlerStatements f isNewReturnVal returnType
      last).flatMap Statement.events)).Nodup := by
  rw [declared_handlerStatements hlast, ← List.append_assoc]
  have hsub : List.Sublist
      (["context", "params"] ++ if !f.isVoidReturn && isNewReturnVal then ["returnVal"] else [])
      ["context", "params", "returnVal"] := by
    split
    · exact List.Sublist.refl _
    · exact List.sublist_append_left ["context", "params"] ["returnVal"]
  have hfixed : ["context", "params", "returnVal"].Nodup := by decide
  refine List.nodup_append.2 ⟨hfixed.sublist hsub, nodup_handlerVars hnames returnType, ?_⟩
  intro fixed hmem name hname h
  exact ne_of_mem_handlerVars hname (hsub.subset hmem) h.symm

end Handler

theorem enclaveEcall_wellFormed {enclaveF : Function}
    (hnames : (enclaveF.getParams.map (·.name)).Nodup) : (enclaveEcall enclaveF).WellFormed where
  inScope := handler_inScope rfl _ (List.mem_cons_of_mem _ List.mem_cons_self) fun _ => rfl
  once := handler_once rfl true _ hnames
  returns := iff_of_true (GeneratedFunction.endsWithReturn_eq _ _ rfl rfl) rfl

theorem oCall_not_wellFormed (appF : Function) : ¬ (oCall appF).WellFormed := by
  intro h
  have hreturn : (oCall appF).endsWithReturn = false :=
    GeneratedFunction.endsWithReturn_eq _ _ rfl rfl
  exact Bool.false_ne_true (hreturn.symm.trans (h.returns.2 rfl))

/-- The handler of an OCALL also assigns `returnVal` without having declared it. -/
theorem oCall_inScope_iff (appF : Function) :
    InScope (oCall appF).paramNames (oCall appF).events ↔ appF.isVoidReturn = true := by
  show InScope ["client", "context", "params"]
    ((handlerStatements appF false { appF.getReturnType with isPtr := false }
      (.other "PrimitiveStatus::OkStatus()" [])).flatMap Statement.events) ↔ _
  constructor
  · intro h
    rw [flatMap_handlerStatements] at h
    have hreturn := (declaredBeforeUse_append.1 h).1
    cases hvoid : appF.isVoidReturn with
    | true => rfl
    | false =>
      rw [hvoid] at hreturn
      revert hreturn
      decide
  · intro hvoid
    refine handler_inScope rfl _ (by decide) fun h => ?_
    rw [hvoid] at h
    cases h

/-! ## Wrappers -/

section Wrapper

variable {f : Function} {stackType : String} {call last : Statement}

theorem flatMap_wrapperStatements (hlast : last.events = []) :
    (wrapperStatements f stackType call last).flatMap Statement.events =
      [.declare "params"] ++
        (((wrapperParams f).map fun x => Statement.pushAlloc x.type x.name false).flatMap
            Statement.events ++ (call.events ++
          ((wrapperParams f).map fun x => Statement.pop x.type x.name false false).flatMap
            Statement.events)) := by
  unfold wrapperStatements
  simp only [List.flatMap_append, List.flatMap_singleton, hlast, List.append_nil,
    List.append_assoc]
  rfl

theorem declared_wrapperStatements (hlast : last.events = []) :
    declared ((wrapperStatements f stackType call last).flatMap Statement.events) =
      "params" :: (extNames (wrapperParams f) ++ declared call.events) := by
  rw [flatMap_wrapperStatements hlast, declared_append, declared_append, declared_append,
    declared_pushes, declared_pops, if_neg Bool.false_ne_true, List.append_nil]
  rfl

theorem wrapper_inScope (hlast : last.events = []) (hcall : used call.events = ["params"]) :
    InScope ((wrapperParams f).map (·.name))
      ((wrapperStatements f stackType call last).flatMap Statement.events) := by
  rw [flatMap_wrapperStatements hlast]
  have hparams : "params" ∈ (wrapperParams f).map (·.name) ++ ["params"] :=
    List.mem_append_right _ List.mem_cons_self
  have hnames : ∀ x ∈ wrapperParams f, x.name ∈ (wrapperParams f).map (·.name) ++ ["params"] :=
    fun x hx => List.mem_append_left _ (List.mem_map_of_mem hx)
  refine declaredBeforeUse_append.2 ⟨trivial, declaredBeforeUse_append.2
    ⟨inScope_pushes hparams hnames, declaredBeforeUse_append.2 ⟨?_, ?_⟩⟩⟩
  · refine declaredBeforeUse_of_used fun name hname => ⟨name, List.mem_append_left _ ?_, rfl⟩
    rw [hcall] at hname
    rw [List.mem_singleton.1 hname]
    exact hparams
  · refine (inScope_pops hparams fun _ => hnames).mono fun name hname => ?_
    exact List.mem_append_left _ (List.mem_append_left _ hname)

theorem nodup_names_wrapperParams (hnames : (f.getParams.map (·.name)).Nodup)
    (hreturn : ∀ p ∈ f.getParams, p.name ≠ "returnVal") :
    ((wrapperParams f).map (·.name)).Nodup := by
  unfold wrapperParams
  split
  · simpa using hnames
  · rw [List.map_append]
    refine List.nodup_append.2 ⟨hnames, List.nodup_singleton _, fun name hname _ hname' => ?_⟩
    obtain ⟨p, hp, rfl⟩ := List.mem_map.1 hname
    rw [List.mem_singleton.1 hname']
    exact hreturn p hp

theorem mem_names_wrapperParams {name : String} (hname : name ≠ "returnVal") :
    name ∈ (wrapperParams f).map (·.name) ↔ name ∈ f.getParams.map (·.name) := by
  unfold wrapperParams
  split
  · rw [List.append_nil]
  · simp [returnParam, hname]

theorem nodup_wrapperVars (hcall : declared call.events ⊆ ["status"])
    (hcallNodup : (declared call.events).Nodup)
    (hparams : ((wrapperParams f).map (·.name)).Nodup) :
    ("params" :: (extNames (wrapperParams f) ++ declared call.events)).Nodup := by
  refine List.nodup_cons.2 ⟨fun h => ?_, List.nodup_append.2
    ⟨nodup_extNames hparams, hcallNodup, ?_⟩⟩
  · rcases List.mem_append.1 h with h | h
    · obtain ⟨x, -, -, hx⟩ := mem_extNames.1 h
      exact append_ne (by decide) x.name hx
    · exact absurd (List.mem_singleton.1 (hcall h)) (by decide)
  · rintro name hname _ hname' rfl
    obtain ⟨x, -, -, hx⟩ := mem_extNames.1 hname
    rw [List.mem_singleton.1 (hcall hname')] at hx
    exact append_ne (by decide) x.name hx

theorem ne_returnVal_of_mem_wrapperVars (hcall : declared call.events ⊆ ["status"]) {name : String}
    (hname : name ∈ "params" :: (extNames (wrapperParams f) ++ declared call.events)) :
    name ≠ "returnVal" := by
  rcases List.mem_cons.1 hname with rfl | hname
  · decide
  rcases List.mem_append.1 hname with hname | hname
  · obtain ⟨x, -, -, rfl⟩ := mem_extNames.1 hname
    exact append_ne (by decide) x.name
  · rw [List.mem_singleton.1 (hcall hname)]
    decide

/-- A wrapper declares every variable once if none has the name of a parameter. -/
theorem wrapper_once_iff (f : Function) (stackType : String) (call last : Statement)
    (hlast : last.events = []) (hcall : declared call.events ⊆ ["status"])
    (hcallNodup : (declared call.events).Nodup) (hnames : (f.getParams.map (·.name)).Nodup)
    (hreturn : ∀ p ∈ f.getParams, p.name ≠ "returnVal") :
    ((wrapperParams f).map (·.name) ++
        declared ((wrapperStatements f stackType call last).flatMap Statement.events)).Nodup ↔
      "params" ∉ f.getParams.map (·.name) ∧
        (∀ x ∈ wrapperParams f, x.type.isArray = true →
          x.name ++ "_ext" ∉ f.getParams.map (·.name)) ∧
        ∀ name ∈ declared call.events, name ∉ f.getParams.map (·.name) := by
  have hparams := nodup_names_wrapperParams hnames hreturn
  rw [declared_wrapperStatements hlast, List.nodup_append, and_iff_right hparams,
    and_iff_right (nodup_wrapperVars hcall hcallNodup hparams),
    ← forall_mem_extNames (P := fun name => name ∉ f.getParams.map (·.name)),
    ← List.forall_mem_append,
    ← List.forall_mem_cons (p := fun name => name ∉ f.getParams.map (·.name))]
  constructor
  · intro h name hname hmem
    have hne := ne_returnVal_of_mem_wrapperVars hcall hname
    exact h name ((mem_names_wrapperParams hne).2 hmem) name hname rfl
  · rintro h name hmem _ hname rfl
    have hne := ne_returnVal_of_mem_wrapperVars hcall hname
    exact h name hname ((mem_names_wrapperParams hne).1 hmem)

end Wrapper

theorem ecallWrapper_wellFormed_iff (enclaveF : NamedSignature) :
    (ecallWrapper enclaveF.toFunction).WellFormed ↔ NamesFree enclaveF.toFunction := by
  have hreturn : (ecallWrapper enclaveF.toFunction).endsWithReturn = true :=
    GeneratedFunction.endsWithReturn_eq _ _ rfl rfl
  have honce := wrapper_once_iff enclaveF.toFunction "UntrustedParameterStack"
    (.enclaveCall ("k" ++ enclaveF.getName ++ "EnclaveSelector"))
    (.returnValue "Status::OkStatus()") rfl (List.Subset.refl _) (List.nodup_singleton _)
    enclaveF.nodup fun p hp => (enclaveF.named p hp).2
  constructor
  · intro h
    obtain ⟨hparams, hext, hstatus⟩ := honce.1 h.once
    exact ⟨hparams, hstatus "status" List.mem_cons_self, hext⟩
  · intro h
    refine ⟨wrapper_inScope rfl rfl, honce.2 ⟨h.params, h.ext, fun name hname => ?_⟩,
      iff_of_true hreturn rfl⟩
    rw [List.mem_singleton.1 hname]
    exact h.status

theorem appFunctionWrapperInEnclave_wellFormed_iff (appF : NamedSignature) :
    (appFunctionWrapperInEnclave appF.toFunction).WellFormed ↔
      "params" ∉ appF.getParams.map (·.name) ∧
        ∀ x ∈ wrapperParams appF.toFunction, x.type.isArray = true →
          x.name ++ "_ext" ∉ appF.getParams.map (·.name) := by
  have hreturn : (appFunctionWrapperInEnclave appF.toFunction).endsWithReturn = true :=
    GeneratedFunction.endsWithReturn_eq _ _ rfl rfl
  have honce := wrapper_once_iff appF.toFunction "TrustedParameterStack"
    (.untrustedCall ("k" ++ appF.getName ++ "OCallHandler"))
    (.returnValue "PrimitiveStatus::OkStatus()") rfl (List.nil_subset _) List.nodup_nil
    appF.nodup fun p hp => (appF.named p hp).2
  constructor
  · intro h
    obtain ⟨hparams, hext, -⟩ := honce.1 h.once
    exact ⟨hparams, hext⟩
  · rintro ⟨hparams, hext⟩
    exact ⟨wrapper_inScope rfl rfl, honce.2 ⟨hparams, hext, nofun⟩, iff_of_true hreturn rfl⟩

/-! ## Redirections -/

section Redirect

variable {f : NamedSignature}

theorem flatMap_redirectStatements (wrapper : Function) (f : NamedSignature) :
    (redirectStatements wrapper f.toFunction).flatMap Statement.events =
      (if f.isVoidReturn then [] else [.declare "returnVal"]) ++
        (f.getParams.map (·.name) ++ if f.isVoidReturn then [] else ["returnVal"]).map .use := by
  unfold redirectStatements
  split <;> simp [Statement.events, Function.comp_def]

/-- A redirection that returns `returnVal` if there is one. -/
theorem redirect_inScope (wrapper : Function) (l : List Statement)
    (hl : l.flatMap Statement.events = if f.isVoidReturn then [] else [.use "returnVal"]) :
    InScope (f.getParams.map (·.name))
      ((redirectStatements wrapper f.toFunction ++ l).flatMap Statement.events) := by
  rw [List.flatMap_append, flatMap_redirectStatements, hl, List.append_assoc]
  refine declaredBeforeUse_append.2 ⟨?_, declaredBeforeUse_of_used fun name hname => ?_⟩
  · split
    · trivial
    · trivial
  · refine ⟨name, ?_, rfl⟩
    rw [used_append, used_map_use] at hname
    cases hvoid : f.isVoidReturn with
    | true => simpa [hvoid, used, declared] using hname
    | false => simpa [hvoid, used, declared] using hname

theorem redirect_once (wrapper : Function) (l : List Statement)
    (hl : declared (l.flatMap Statement.events) = []) :
    (f.getParams.map (·.name) ++
      declared ((redirectStatements wrapper f.toFunction ++ l).flatMap Statement.events)).Nodup := by
  rw [List.flatMap_append, flatMap_redirectStatements, declared_append, declared_append,
    declared_map_use, hl, List.append_nil, List.append_nil]
  cases f.isVoidReturn with
  | true => simpa [declared] using f.nodup
  | false =>
    refine List.nodup_append.2 ⟨f.nodup, List.nodup_singleton _, fun name hname _ hname' => ?_⟩
    obtain ⟨p, hp, rfl⟩ := List.mem_map.1 hname
    rw [List.mem_singleton.1 hname']
    exact (f.named p hp).2

end Redirect

/-- A `void*` function returns nothing where it is redirected. -/
theorem appFunctionInEnclave_wellFormed_iff (appF : NamedSignature) :
    (appFunctionInEnclave appF.toSignature).WellFormed ↔
      (appF.isVoidReturn = true → appF.getReturnType.isVoid = true) := by
  have hreturn : (appFunctionInEnclave appF.toSignature).endsWithReturn = !appF.isVoidReturn := by
    cases hvoid : appF.isVoidReturn with
    | true =>
      refine GeneratedFunction.endsWithReturn_eq []
        (.call none true (generateAppFunctionWrapperInEnclave appF.toFunction)
          (appF.getParams.map fun p => (if p.type.isPtr then "*" else "", p.name))) ?_ rfl
      simp [appFunctionInEnclave, redirectStatements, hvoid]
    | false =>
      refine GeneratedFunction.endsWithReturn_eq (redirectStatements
        (generateAppFunctionWrapperInEnclave appF.toFunction) appF.toFunction)
        (.returnVariable "returnVal") ?_ rfl
      simp [appFunctionInEnclave, hvoid]
  have hevents : (if appF.isVoidReturn then [] else
      [Statement.returnVariable "returnVal"]).flatMap Statement.events =
        if appF.isVoidReturn then [] else [.use "returnVal"] := by
    split <;> rfl
  have hdeclared : declared ((if appF.isVoidReturn then [] else
      [Statement.returnVariable "returnVal"]).flatMap Statement.events) = [] := by
    split <;> rfl
  have hisVoid : appF.getReturnType.isVoid = true → appF.isVoidReturn = true := by
    unfold CType.isVoid Function.isVoidReturn
    intro h
    rw [Bool.and_assoc] at h
    exact (Bool.and_eq_true_iff.1 h).1
  constructor
  · intro h hvoid
    by_contra hne
    have htrue := h.returns.2 (Bool.eq_false_of_not_eq_true hne)
    rw [hreturn, hvoid] at htrue
    cases htrue
  · intro h
    refine ⟨redirect_inScope _ _ hevents, redirect_once _ _ hdeclared, ?_⟩
    show _ ↔ appF.getReturnType.isVoid = false
    rw [hreturn, Bool.not_eq_true', ← Bool.not_eq_true, ← Bool.not_eq_true, not_iff_not]
    exact ⟨h, hisVoid⟩

/-- In the driver a function returns `returnVal` even where there is none. -/
theorem enclaveFunctionInDriver_wellFormed_iff (enclaveF : NamedSignature) :
    (enclaveFunctionInDriver enclaveF.toSignature).WellFormed ↔ enclaveF.isVoidReturn = false := by
  have hreturn : (enclaveFunctionInDriver enclaveF.toSignature).endsWithReturn = true :=
    GeneratedFunction.endsWithReturn_eq _ _ rfl rfl
  constructor
  · intro h
    have hscope : InScope (enclaveF.getParams.map (·.name)) ((redirectStatements
        (generateEcallWrapper enclaveF.toFunction) enclaveF.toFunction ++
          [Statement.returnVariable "returnVal"]).flatMap Statement.events) := h.inScope
    rw [List.flatMap_append, flatMap_redirectStatements] at hscope
    obtain ⟨name, hname, rfl⟩ := (declaredBeforeUse_append.1 hscope).2.1
    rw [declared_append, declared_map_use] at hname
    cases hvoid : enclaveF.isVoidReturn with
    | false => rfl
    | true =>
      -- `returnVal` is not a parameter
      have hmem : "returnVal" ∈ enclaveF.getParams.map (·.name) := by
        simpa [hvoid, declared] using hname
      obtain ⟨p, hp, hpname⟩ := List.mem_map.1 hmem
      exact absurd hpname (enclaveF.named p hp).2
  · intro hvoid
    refine ⟨redirect_inScope _ _ ?_, redirect_once _ _ rfl, iff_of_true hreturn ?_⟩
    · rw [hvoid]
      rfl
    · show enclaveF.getReturnType.isVoid = false
      have hname : (enclaveF.getReturnType.name == "void") = false := hvoid
      rw [CType.isVoid, hname, Bool.false_and, Bool.false_and]

/-! ## All bodies -/

/-- **When the bodies are well formed.**  There must be no OCALLs, and every enclave function must
return something that is not called `void` and keep off the names that its wrapper declares. -/
theorem bodiesWellFormed_iff (enclaveFunctions appFunctions : List NamedSignature) :
    BodiesWellFormed enclaveFunctions appFunctions ↔
      appFunctions = [] ∧
        ∀ f ∈ enclaveFunctions, f.getReturnType.name ≠ "void" ∧ NamesFree f.toFunction := by
  have hname : ∀ f : NamedSignature, f.getReturnType.name ≠ "void" ↔ f.isVoidReturn = false := by
    intro f
    rw [Function.isVoidReturn, beq_eq_false_iff_ne]
  constructor
  · intro h
    refine ⟨List.eq_nil_iff_forall_not_mem.2 fun f hf => ?_, fun f hf => ⟨?_, ?_⟩⟩
    · refine oCall_not_wellFormed f.toFunction (h _ (List.mem_append_right _ ?_))
      exact List.mem_flatMap.2 ⟨f, hf, List.mem_cons_self⟩
    · refine (hname f).2 ((enclaveFunctionInDriver_wellFormed_iff f).1
        (h _ (List.mem_append_left _ ?_)))
      exact List.mem_flatMap.2 ⟨f, hf, by simp⟩
    · refine (ecallWrapper_wellFormed_iff f).1 (h _ (List.mem_append_left _ ?_))
      exact List.mem_flatMap.2 ⟨f, hf, by simp⟩
  · rintro ⟨rfl, h⟩ g hg
    rcases List.mem_append.1 hg with hg | hg
    · obtain ⟨f, hf, hg⟩ := List.mem_flatMap.1 hg
      obtain ⟨hvoid, hfree⟩ := h f hf
      simp only [List.mem_cons, List.not_mem_nil, or_false] at hg
      rcases hg with rfl | rfl | rfl
      · exact enclaveEcall_wellFormed f.nodup
      · exact (ecallWrapper_wellFormed_iff f).2 hfree
      · exact (enclaveFunctionInDriver_wellFormed_iff f).2 ((hname f).1 hvoid)
    · cases hg

/-- `void show_score(screen_t *screen)` -/
def showScore : NamedSignature where
  toSignature := signature "show_score" { name := "void" }
    [{ type := { name := "screen_t", isPtr := true }, name := "screen" }]
  nodup := by decide
  named := by decide

theorem showScore_not_wellFormed : ¬ BodiesWellFormed [showScore] [] := by
  intro h
  have hmem : enclaveFunctionInDriver showScore.toSignature ∈ generatedBodies [showScore] [] :=
    List.mem_append_left _ (List.mem_flatMap.2 ⟨showScore, List.mem_singleton.2 rfl, by simp⟩)
  have hdriver := (enclaveFunctionInDriver_wellFormed_iff showScore).1 (h _ hmem)
  revert hdriver
  decide

example : (generateEnclaveFunctionInDriver (generateEcallWrapper showScore.toFunction)
    showScore.toFunction).body.map Instruction.getAsString =
    ["asylo::primitives::show_score(&*screen)", "return returnVal"] := by
  decide

end SGXCodeGenerator

end Vazgen
