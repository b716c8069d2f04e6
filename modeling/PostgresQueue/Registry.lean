import Mathlib.Data.List.Basic

namespace PostgresQueue

/-- What an attribute is found to be. An `object` is written as its `text`. -/
inductive Attribute
  | str (s : String)
  | none
  | object (text : String)
deriving DecidableEq

def Attribute.text : Attribute → String
  | .str s => s
  | .none => "None"
  | .object text => text

/-- What `get_function_path` reads of a callable: attributes that may be missing, the free
variables of its `__code__`, its `str`, and the name of its type. -/
structure PyCallable where
  name : Option Attribute
  freevars : Option (List String)
  module : Option Attribute
  str : String
  type : String

inductive RegistryError
  | valueError (msg : String)
  | importError (msg : String)
  | attributeError (msg : String)
  | exception (msg : String)
deriving DecidableEq

def RegistryError.str : RegistryError → String
  | .valueError msg | .importError msg | .attributeError msg | .exception msg => msg

structure ModuleEnv (F M : Type) where
  attributes : F → PyCallable
  callable : F → Bool
  importModule : String → Except RegistryError M
  getattr : M → String → Except RegistryError F

section Paths

def rsplitColon : List Char → Option (List Char × List Char)
  | [] => none
  | c :: cs =>
    match rsplitColon cs with
    | some (before, after) => some (c :: before, after)
    | none => if c = ':' then some ([], cs) else none

theorem rsplitColon_none {s : List Char} : rsplitColon s = none ↔ ':' ∉ s := by
  induction s with
  | nil => simp [rsplitColon]
  | cons c cs ih =>
    rw [rsplitColon, List.mem_cons, not_or, ← ih]
    cases rsplitColon cs with
    | some => simp
    | none => simp [eq_comm]

theorem rsplitColon_append (before : List Char) {after : List Char} (h : ':' ∉ after) :
    rsplitColon (before ++ ':' :: after) = some (before, after) := by
  induction before with
  | nil => rw [List.nil_append, rsplitColon, rsplitColon_none.mpr h, if_pos rfl]
  | cons c before ih => rw [List.cons_append, rsplitColon, ih]

theorem rsplitColon_some {s before after : List Char} (h : rsplitColon s = some (before, after)) :
    s = before ++ ':' :: after ∧ ':' ∉ after := by
  induction s generalizing before with
  | nil => cases h
  | cons c cs ih =>
    rw [rsplitColon] at h
    cases hcs : rsplitColon cs with
    | some split =>
      rw [hcs] at h
      cases h
      obtain ⟨heq, hafter⟩ := ih hcs
      exact ⟨congrArg (c :: ·) heq, hafter⟩
    | none =>
      rw [hcs] at h
      split_ifs at h with hc
      cases h
      exact ⟨by rw [hc, List.nil_append], rsplitColon_none.mp hcs⟩

end Paths

def getFunctionPath (fn : PyCallable) : Except RegistryError String :=
  match fn.name with
  | none => .error (.attributeError ("'" ++ fn.type ++ "' object has no attribute '__name__'"))
  | some name =>
    if name = .str "<lambda>" then
      .error (.valueError "Cannot enqueue lambda functions - use a named function instead")
    else if fn.freevars.any (· ≠ []) then
      .error (.valueError ("Cannot enqueue closure '" ++ name.text ++
        "' - closures capture local variables and cannot be imported by the worker"))
    else
      match fn.module.getD .none, name with
      | .none, _ | _, .none => .error (.valueError ("Cannot determine import path for " ++ fn.str))
      | module, name => .ok (module.text ++ ":" ++ name.text)

def fromImport {α : Type} (modulePath funcName : String) : Except RegistryError α →
    Except RegistryError α
  | .error (.importError e) =>
    .error (.valueError ("Cannot import module '" ++ modulePath ++ "': " ++ e))
  | .error (.attributeError _) =>
    .error (.valueError ("Module '" ++ modulePath ++ "' has no function '" ++ funcName ++ "'"))
  | result => result

section Registry

variable {F M : Type} (env : ModuleEnv F M)

def resolveFunctionPath (path : String) : Except RegistryError F :=
  match rsplitColon path.toList with
  | none => .error (.valueError ("Invalid function path: " ++ path ++
      " (expected 'module:name' format)"))
  | some (before, after) =>
    let modulePath := String.ofList before
    let funcName := String.ofList after
    fromImport modulePath funcName do
      let module ← env.importModule modulePath
      let func ← env.getattr module funcName
      if !env.callable func then throw (.valueError (path ++ " is not callable"))
      return func

def LeadsBack (func : F) : Prop :=
  (∃ msg, getFunctionPath (env.attributes func) = .error (.valueError msg)) ∨
    ∃ path, getFunctionPath (env.attributes func) = .ok path ∧ resolveFunctionPath env path = .ok func

end Registry

/-- What has no path: a lambda, a closure, and what has no module or name to look it up by. -/
def PyCallable.Refused (fn : PyCallable) (name : Attribute) : Prop :=
  name = .str "<lambda>" ∨ (∃ vars, fn.freevars = some vars ∧ vars ≠ []) ∨
    fn.module.getD .none = .none ∨ name = .none

/-- The module that the callable says it is from has the callable itself under the name that the
callable says it has. A colon in that name goes to the name of the module. -/
def Bound {F M : Type} (env : ModuleEnv F M) (func : F) (module name : String) : Prop :=
  ∃ modulePath funcName m, modulePath ++ ":" ++ funcName = module ++ ":" ++ name ∧
    ':' ∉ funcName.toList ∧ env.importModule modulePath = .ok m ∧ env.getattr m funcName = .ok func

def Traceable {F M : Type} (env : ModuleEnv F M) (func : F) : Prop :=
  ∃ name, (env.attributes func).name = some name ∧ ((env.attributes func).Refused name ∨
    ∃ module, (env.attributes func).module = some module ∧ Bound env func module.text name.text)

section Accepted

variable {fn : PyCallable} {name : Attribute}

theorem getFunctionPath_unnamed (h : fn.name = none) :
    ∃ msg, getFunctionPath fn = .error (.attributeError msg) := by
  unfold getFunctionPath
  rw [h]
  exact ⟨_, rfl⟩

theorem getFunctionPath_refused (hname : fn.name = some name) (h : fn.Refused name) :
    ∃ msg, getFunctionPath fn = .error (.valueError msg) := by
  unfold getFunctionPath
  rw [hname]
  dsimp only
  split_ifs with hlambda hfree
  · exact ⟨_, rfl⟩
  · exact ⟨_, rfl⟩
  · rcases h with h | ⟨vars, hvars, hne⟩ | h | rfl
    · exact absurd h hlambda
    · rw [hvars] at hfree
      simp [hne] at hfree
    · rw [h]
      exact ⟨_, rfl⟩
    · cases fn.module.getD .none <;> exact ⟨_, rfl⟩

theorem getFunctionPath_accepted (hname : fn.name = some name) (h : ¬fn.Refused name) :
    ∃ module, fn.module = some module ∧
      getFunctionPath fn = .ok (module.text ++ ":" ++ name.text) := by
  unfold PyCallable.Refused at h
  simp only [not_or] at h
  obtain ⟨hlambda, hfree, hmodule, hnone⟩ := h
  have hvars : fn.freevars.any (· ≠ []) = false := by
    by_contra hany
    rw [Bool.not_eq_false, Option.any_eq_true] at hany
    obtain ⟨vars, hv, hne⟩ := hany
    exact hfree ⟨vars, hv, of_decide_eq_true hne⟩
  cases hm : fn.module with
  | none => exact absurd (by rw [hm]; rfl) hmodule
  | some module =>
    rw [hm, Option.getD_some] at hmodule
    refine ⟨module, rfl, ?_⟩
    unfold getFunctionPath
    rw [hname]
    dsimp only
    rw [if_neg hlambda, hvars, if_neg Bool.false_ne_true, hm, Option.getD_some]
    cases module with
    | none => exact absurd rfl hmodule
    | str | object =>
      cases name with
      | none => exact absurd rfl hnone
      | str | object => rfl

end Accepted

section LeadsBack

variable {F M : Type} {env : ModuleEnv F M} {func : F}

theorem fromImport_ok {α : Type} {modulePath funcName : String} {x : Except RegistryError α} {a : α} :
    fromImport modulePath funcName x = .ok a ↔ x = .ok a := by
  cases x with
  | ok => exact Iff.rfl
  | error e => cases e <;> exact iff_of_false (fun h => nomatch h) (fun h => nomatch h)

theorem resolved_ok {modulePath funcName path : String} (hcallable : env.callable func = true) :
    (fromImport modulePath funcName do
      let m ← env.importModule modulePath
      let found ← env.getattr m funcName
      if !env.callable found then throw (.valueError (path ++ " is not callable"))
      return found) = .ok func ↔
    ∃ m, env.importModule modulePath = .ok m ∧ env.getattr m funcName = .ok func := by
  rw [fromImport_ok]
  cases env.importModule modulePath with
  | error => exact iff_of_false (fun h => nomatch h) fun ⟨_, h, _⟩ => nomatch h
  | ok m =>
    simp only [Except.ok.injEq, exists_eq_left', bind, Except.bind]
    cases env.getattr m funcName with
    | error => exact iff_of_false (fun h => nomatch h) fun h => nomatch h
    | ok found =>
      dsimp only
      cases hfound : env.callable found with
      | true => exact Iff.rfl
      | false =>
        refine iff_of_false (fun h => nomatch h) fun h => ?_
        cases h
        rw [hcallable] at hfound
        cases hfound

theorem resolveFunctionPath_ok (hcallable : env.callable func = true) (module name : String) :
    resolveFunctionPath env (module ++ ":" ++ name) = .ok func ↔ Bound env func module name := by
  unfold resolveFunctionPath
  constructor
  · intro h
    cases hs : rsplitColon (module ++ ":" ++ name).toList with
    | none =>
      rw [hs] at h
      cases h
    | some split =>
      obtain ⟨before, after⟩ := split
      rw [hs] at h
      obtain ⟨m, himport, hattr⟩ := (resolved_ok hcallable).mp h
      obtain ⟨heq, hcolon⟩ := rsplitColon_some hs
      refine ⟨String.ofList before, String.ofList after, m, ?_, ?_, himport, hattr⟩
      · apply String.toList_injective
        rw [heq]
        simp
      · rwa [String.toList_ofList]
  · rintro ⟨modulePath, funcName, m, heq, hcolon, himport, hattr⟩
    have hs : rsplitColon (module ++ ":" ++ name).toList =
        some (modulePath.toList, funcName.toList) := by
      rw [← heq, ← rsplitColon_append modulePath.toList hcolon]
      simp
    rw [hs]
    refine (resolved_ok hcallable).mpr ⟨m, ?_, ?_⟩
    · rwa [String.ofList_toList]
    · rwa [String.ofList_toList]

theorem leadsBack_iff (hcallable : env.callable func = true) :
    LeadsBack env func ↔ Traceable env func := by
  unfold Traceable LeadsBack
  cases hname : (env.attributes func).name with
  | none =>
    obtain ⟨msg, hget⟩ := getFunctionPath_unnamed hname
    rw [hget]
    refine iff_of_false ?_ fun ⟨_, h, _⟩ => nomatch h
    rintro (⟨_, h⟩ | ⟨_, h, -⟩) <;> cases h
  | some name =>
    simp only [Option.some_inj, exists_eq_left']
    by_cases hrefused : (env.attributes func).Refused name
    · obtain ⟨msg, hget⟩ := getFunctionPath_refused hname hrefused
      exact iff_of_true (.inl ⟨msg, hget⟩) (.inl hrefused)
    · obtain ⟨module, hmodule, hget⟩ := getFunctionPath_accepted hname hrefused
      rw [hget, hmodule]
      simp [hrefused, resolveFunctionPath_ok hcallable]

/-- A callable is refused, or its path leads back to it, exactly if it has a name and its module
has it under that name. No two such callables have the same path. -/
theorem path_leads_back (hcallable : env.callable func = true) :
    (LeadsBack env func ↔ Traceable env func) ∧
    ∀ other path, env.callable other = true → Traceable env func → Traceable env other →
      getFunctionPath (env.attributes func) = .ok path →
      getFunctionPath (env.attributes other) = .ok path → other = func := by
  refine ⟨leadsBack_iff hcallable, fun other path hother hfunc hother' hpath hpath' => ?_⟩
  have hresolve : ∀ f, env.callable f = true → Traceable env f →
      getFunctionPath (env.attributes f) = .ok path → resolveFunctionPath env path = .ok f := by
    intro f hf htrace hget
    rcases (leadsBack_iff hf).mpr htrace with ⟨msg, h⟩ | ⟨path', h, hback⟩
    · rw [hget] at h
      cases h
    · rw [hget] at h
      cases h
      exact hback
  have heq := (hresolve other hother hother' hpath').symm.trans (hresolve func hcallable hfunc hpath)
  exact Except.ok.inj heq

end LeadsBack

section Sample

inductive SampleCallable
  | function
  | method
  | applied

def sampleModules : ModuleEnv SampleCallable Unit where
  attributes
    | .function => ⟨some (.str "handler"), some [], some (.str "jobs"), "<function handler>", "function"⟩
    | .method => ⟨some (.str "handler"), some [], some (.str "jobs"), "<function Jobs.handler>", "function"⟩
    | .applied => ⟨none, none, some (.str "functools"), "functools.partial(<function handler>)",
        "functools.partial"⟩
  callable _ := true
  importModule name :=
    if name = "jobs" then .ok () else .error (.importError ("No module named '" ++ name ++ "'"))
  getattr _ name :=
    if name = "handler" then .ok .function
    else .error (.attributeError ("module 'jobs' has no attribute '" ++ name ++ "'"))

theorem path_leads_back_function :
    (LeadsBack sampleModules .function ↔ Traceable sampleModules .function) ∧
    ∀ other path, sampleModules.callable other = true → Traceable sampleModules .function →
      Traceable sampleModules other →
      getFunctionPath (sampleModules.attributes .function) = .ok path →
      getFunctionPath (sampleModules.attributes other) = .ok path → other = .function :=
  path_leads_back rfl

theorem path_leads_elsewhere :
    ¬∀ func, sampleModules.callable func = true → LeadsBack sampleModules func := by
  intro h
  rcases h .method rfl with ⟨_, hget⟩ | ⟨path, hget, hback⟩
  · cases hget
  · cases hget
    rw [resolveFunctionPath_ok rfl] at hback
    obtain ⟨_, _, _, _, _, _, hattr⟩ := hback
    unfold sampleModules at hattr
    dsimp only at hattr
    split_ifs at hattr
    cases hattr

end Sample

end PostgresQueue
