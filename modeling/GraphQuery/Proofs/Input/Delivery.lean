import GraphQuery.Proofs.Input.Arguments
import GraphQuery.Query.Binding

/-! The ways in which the value of an argument can arrive. A literal may be written in place, or parts of it
may come as variables of the request, or all of it as the default of a variable or of the argument;
the outcome of binding is one and the same, since every way ends in the same value before coercion. -/

namespace GraphQuery

/-! ### Defaults of variables -/

namespace Operation

variable {operation : Operation} {request vars next : Members} {var : String}

/-- The default that an operation has for a variable. Of several ones, the first counts. -/
def default? (operation : Operation) (var : String) : Option Literal :=
  operation.vars.findSome? fun decl => if decl.name = var then decl.default? else none

/-- A declaration adds the value of its default, and only to a variable that has no value. -/
theorem addDefault_ok {decl : VariableDecl} (h : addDefault vars decl = .ok next) :
    (next = vars ∧ (vars.get? decl.name = none → decl.default? = none)) ∨
    ∃ default value, vars.get? decl.name = none ∧ decl.default? = some default ∧
      default.evaluate [] = .ok value ∧ next = vars.insert decl.name value := by
  unfold addDefault at h
  split at h
  · next default hnone hdefault =>
      split at h
      · next value hvalue =>
          cases h
          exact Or.inr ⟨default, value, hnone, hdefault, hvalue, rfl⟩
      · cases h
  · next hother =>
      cases h
      refine Or.inl ⟨rfl, fun hnone => Option.eq_none_iff_forall_not_mem.mpr fun default hdefault => ?_⟩
      exact hother default hnone hdefault

/-- Variables with a value keep it. -/
theorem get?_of_request {decls : List VariableDecl} (h : decls.foldlM addDefault request = .ok vars) {value : Value}
    (hvalue : request.get? var = some value) : vars.get? var = some value := by
  refine Outcome.foldlM_preserves (fun vars => vars.get? var = some value) ?_ hvalue h
  intro decl _ vars next hkept hnext
  rcases addDefault_ok hnext with ⟨rfl, _⟩ | ⟨_, _, hnone, _, _, rfl⟩
  · exact hkept
  · have hne : var ≠ decl.name := by
      rintro rfl
      rw [hnone] at hkept
      cases hkept
    rw [Members.get?_insert, if_neg hne]
    exact hkept

/-- Variables without a value and without a default have none afterwards. -/
theorem get?_of_no_default {decls : List VariableDecl} (h : decls.foldlM addDefault request = .ok vars)
    (hnone : request.get? var = none) (hdefault : ∀ decl ∈ decls, decl.name = var → decl.default? = none) :
    vars.get? var = none := by
  refine Outcome.foldlM_preserves (fun vars => vars.get? var = none) ?_ hnone h
  intro decl hmem vars next hkept hnext
  rcases addDefault_ok hnext with ⟨rfl, _⟩ | ⟨_, _, _, hsome, _, rfl⟩
  · exact hkept
  · have hne : var ≠ decl.name := by
      rintro rfl
      rw [hdefault decl hmem rfl] at hsome
      cases hsome
    rw [Members.get?_insert, if_neg hne]
    exact hkept

theorem get?_of_unset (h : operation.withDefaults request = .ok vars) (hnone : request.get? var = none)
    (hdefault : operation.default? var = none) : vars.get? var = none := by
  refine get?_of_no_default h hnone fun decl hmem hname => ?_
  have hdecl := List.findSome?_eq_none_iff.mp hdefault decl hmem
  rwa [if_pos hname] at hdecl

/-- A variable that the request leaves out has the value of its default. -/
theorem get?_of_default (h : operation.withDefaults request = .ok vars) (hnone : request.get? var = none)
    {default : Literal} (hdefault : operation.default? var = some default) :
    ∃ value, default.evaluate [] = .ok value ∧ vars.get? var = some value := by
  obtain ⟨before, decl, after, hdecls, hdecl, hbefore⟩ := List.findSome?_eq_some_iff.mp hdefault
  obtain ⟨hname, hsome⟩ : decl.name = var ∧ decl.default? = some default := by
    split at hdecl
    · next hname => exact ⟨hname, hdecl⟩
    · cases hdecl
  rw [withDefaults, hdecls, List.foldlM_append] at h
  obtain ⟨earlier, hearlier, h⟩ := Outcome.bind_ok_iff.mp h
  obtain ⟨next, hnext, hafter⟩ := Outcome.bind_ok_iff.mp ((List.foldlM_cons ..).symm.trans h)
  have hstill : earlier.get? decl.name = none := by
    rw [hname]
    refine get?_of_no_default hearlier hnone fun other hmem hother => ?_
    have hnone := hbefore other hmem
    rwa [if_pos hother] at hnone
  rcases addDefault_ok hnext with ⟨_, habsent⟩ | ⟨found, value, _, hfound, hvalue, rfl⟩
  · rw [habsent hstill] at hsome
    cases hsome
  · rw [hsome] at hfound
    cases hfound
    refine ⟨value, hvalue, get?_of_request hafter ?_⟩
    rw [Members.get?_insert, if_pos hname.symm]

end Operation

/-! ### Arguments with other literals -/

namespace Parameter

/-- An argument, with a default when it has a certain name. -/
def defaulting (name : String) (value : Value) (parameter : Parameter) : Parameter :=
  if parameter.name = name then { parameter with default? := some value } else parameter

theorem name_defaulting (name : String) (value : Value) (parameter : Parameter) :
    (parameter.defaulting name value).name = parameter.name := by
  unfold defaulting
  split <;> rfl

end Parameter

namespace RuleRegistry

variable {registry : RuleRegistry} {field : String} {parameters : List Parameter} {parameter : Parameter}
  {name : String} {supplied before after : List (String × Literal)} {vars vars' : Members}
  {literal written : Literal} {value : Value} {arguments : Arguments}

/-- Writing another literal in the place of one changes what is found under its name at most. -/
theorem lookup_written (other : String) :
    ((before ++ (name, written) :: after).lookup other = some written ∧
      (before ++ (name, literal) :: after).lookup other = some literal) ∨
    ((before ++ (name, written) :: after).lookup other = (before ++ (name, literal) :: after).lookup other ∧
      ∀ found, (before ++ (name, literal) :: after).lookup other = some found →
        ∃ entry ∈ before ++ after, entry.2 = found) := by
  rw [List.lookup_append, List.lookup_append, Keyed.lookup_entry, Keyed.lookup_entry]
  cases hbefore : before.lookup other with
  | some earlier =>
      refine Or.inr ⟨rfl, fun found hfound => ?_⟩
      cases hfound
      exact ⟨_, List.mem_append_left _ (Keyed.mem_of_lookup hbefore), rfl⟩
  | none =>
      rw [Option.none_or, Option.none_or]
      by_cases hname : other = name
      · rw [if_pos hname, if_pos hname]
        exact Or.inl ⟨rfl, rfl⟩
      · rw [if_neg hname, if_neg hname]
        exact Or.inr ⟨rfl, fun found hfound => ⟨_, List.mem_append_right _ (Keyed.mem_of_lookup hfound), rfl⟩⟩

/-- Literals in the same place that have the same value are bound alike. -/
theorem bindArguments_of_value (hvalue : literal.evaluate vars = .ok value)
    (hwritten : written.evaluate vars' = .ok value)
    (hkept : ∀ entry ∈ before ++ after, ∀ var ∈ entry.2.used, vars'.get? var = vars.get? var) :
    registry.bindArguments field parameters (before ++ (name, written) :: after) vars' =
      registry.bindArguments field parameters (before ++ (name, literal) :: after) vars := by
  have hstep : ∀ parameter bound,
      registry.bindParameter (before ++ (name, written) :: after) vars' bound parameter =
        registry.bindParameter (before ++ (name, literal) :: after) vars bound parameter := by
    intro parameter bound
    rcases lookup_written parameter.name with ⟨hnew, hold⟩ | ⟨hsame, hfound⟩
    · have hgiven := given_of_evaluate hvalue
      refine bindParameter_congr ?_ ?_
      · rw [hnew, hold, hgiven, given_of_evaluate hwritten]
      · rw [hold, hgiven]
        exact nofun
    · refine bindParameter_congr ?_ fun _ => by rw [hsame]
      rw [hsame]
      cases hlookup : (before ++ (name, literal) :: after).lookup parameter.name with
      | none => rfl
      | some found =>
          obtain ⟨entry, hmem, rfl⟩ := hfound found hlookup
          exact given_congr (hkept entry hmem)
  rw [bindArguments_eq, bindArguments_eq, List.map_append, List.map_append, List.map_cons, List.map_cons,
    Outcome.foldlM_congr fun parameter _ bound => hstep parameter bound]

/-! ### Arguments that are left out -/

/-- The supplied arguments without those of a name. -/
def leaveOut (name : String) (supplied : List (String × Literal)) : List (String × Literal) :=
  supplied.filter fun entry => entry.1 != name

theorem lookup_leaveOut (name other : String) (supplied : List (String × Literal)) :
    (leaveOut name supplied).lookup other = if other = name then none else supplied.lookup other := by
  induction supplied with
  | nil => split <;> rfl
  | cons entry rest ih =>
      obtain ⟨key, literal⟩ := entry
      unfold leaveOut at ih ⊢
      rw [List.filter_cons]
      by_cases hkey : key = name
      · rw [if_neg (by simpa using hkey), ih, Keyed.lookup_entry]
        by_cases hother : other = name
        · rw [if_pos hother, if_pos hother]
        · rw [if_neg hother, if_neg hother, if_neg (hkey ▸ hother)]
      · rw [if_pos (by simpa using hkey), Keyed.lookup_entry, Keyed.lookup_entry, ih]
        by_cases hother : other = key
        · rw [if_pos hother, if_pos hother, if_neg (hother ▸ hkey)]
        · rw [if_neg hother, if_neg hother]

theorem leaveOut_entry : leaveOut name (before ++ (name, literal) :: after) = leaveOut name (before ++ after) := by
  simp [leaveOut, List.filter_append]

/-- Leaving out arguments that are declared leaves the same name as the first one that is not. -/
theorem undeclared?_leaveOut {declared : List String} (hdeclared : name ∈ declared) :
    undeclared? declared ((leaveOut name supplied).map Prod.fst) = undeclared? declared (supplied.map Prod.fst) := by
  have hfilter : (leaveOut name supplied).map Prod.fst = (supplied.map Prod.fst).filter (· != name) := by
    rw [List.filter_map]
    rfl
  rw [hfilter, undeclared?, undeclared?, List.find?_filter]
  refine congrArg (List.find? · _) (funext fun other => ?_)
  by_cases hother : other = name
  · simp [hother, hdeclared]
  · simp [hother]

/-- Without a value for an argument of a variable, only the wording of a failure tells the variable from an
argument that is left out. -/
theorem omitted_ok_congr {var : String} :
    registry.omitted parameter (some (.variable var)) = .ok value ↔ registry.omitted parameter none = .ok value := by
  unfold omitted
  split
  · exact Iff.rfl
  · split
    · exact ⟨nofun, nofun⟩
    · exact Iff.rfl

/-- A variable without a value binds what leaving out the argument binds. -/
theorem bindArguments_of_unset (hdeclared : name ∈ parameters.map Parameter.name) {var : String}
    (hvar : vars.get? var = none) (hlookup : supplied.lookup name = some (.variable var)) :
    registry.bindArguments field parameters supplied vars = .ok arguments ↔
      registry.bindArguments field parameters (leaveOut name supplied) vars = .ok arguments := by
  have hstep : ∀ parameter bound next, registry.bindParameter supplied vars bound parameter = .ok next ↔
      registry.bindParameter (leaveOut name supplied) vars bound parameter = .ok next := by
    intro parameter bound next
    by_cases hname : parameter.name = name
    · have hleft : (leaveOut name supplied).lookup parameter.name = none := by
        rw [lookup_leaveOut, if_pos hname]
      have hgiven : given vars (supplied.lookup parameter.name) = .ok none :=
        given_of_unsupplied (Or.inr ⟨var, hname ▸ hlookup, hvar⟩)
      rw [bindParameter_of_none hgiven, bindParameter_of_none (given_of_unsupplied (Or.inl hleft)),
        Outcome.map_ok_iff, Outcome.map_ok_iff, hleft, hname, hlookup]
      exact exists_congr fun value => and_congr_left' omitted_ok_congr
    · have hsame : (leaveOut name supplied).lookup parameter.name = supplied.lookup parameter.name := by
        rw [lookup_leaveOut, if_neg hname]
      rw [bindParameter_congr (congrArg (given vars) hsame) fun _ => by rw [hsame]]
  rw [bindArguments_eq, bindArguments_eq, undeclared?_leaveOut hdeclared]
  cases undeclared? (parameters.map Parameter.name) (supplied.map Prod.fst) with
  | some undeclared => exact ⟨nofun, nofun⟩
  | none =>
      rw [Outcome.mapError_ok_iff, Outcome.mapError_ok_iff]
      exact Outcome.foldlM_ok_congr fun parameter _ => hstep parameter

/-- Two bindings have the same values, whichever of them the query gave. -/
def SameValues (first second : Arguments) : Prop :=
  first.values = second.values

theorem bindParameter_same {first second : Arguments} (h : SameValues first second) :
    Outcome.Agree SameValues (registry.bindParameter supplied vars first parameter)
      (registry.bindParameter supplied vars second parameter) := by
  have hput : ∀ value, Keyed.put parameter.name value first.values = Keyed.put parameter.name value second.values :=
    fun value => by rw [h]
  cases hgiven : given vars (supplied.lookup parameter.name) with
  | error fault =>
      rw [bindParameter_of_error hgiven, bindParameter_of_error hgiven]
      exact .error fault
  | ok raw? =>
      cases raw? with
      | some raw =>
          rw [bindParameter_of_given hgiven, bindParameter_of_given hgiven]
          exact (Outcome.Agree.refl _).map fun _ value heq => heq ▸ hput _
      | none =>
          rw [bindParameter_of_none hgiven, bindParameter_of_none hgiven]
          exact (Outcome.Agree.refl _).map fun _ value heq => heq ▸ hput _

/-- A default is checked like a value that the query gives. -/
theorem bindParameter_defaulting (hgiven : given vars (supplied.lookup name) = .ok (some value))
    {first second : Arguments} (h : SameValues first second) :
    Outcome.Agree SameValues
      (registry.bindParameter (leaveOut name supplied) vars first (parameter.defaulting name value))
      (registry.bindParameter supplied vars second parameter) := by
  by_cases hname : parameter.name = name
  · subst hname
    have hnone : (leaveOut parameter.name supplied).lookup parameter.name = none := by
      rw [lookup_leaveOut, if_pos rfl]
    have hleft : registry.bindParameter (leaveOut parameter.name supplied) vars first
        { parameter with default? := some value } =
          (registry.coerce parameter.name parameter.type value).map (first.bind parameter.name) :=
      bindParameter_of_none (given_of_unsupplied (Or.inl hnone))
    rw [Parameter.defaulting, if_pos rfl, hleft, bindParameter_of_given hgiven]
    refine (Outcome.Agree.refl (registry.coerce parameter.name parameter.type value)).map fun _ coerced heq => ?_
    rw [heq]
    exact congrArg (Keyed.put parameter.name coerced) h
  · have hsame : (leaveOut name supplied).lookup parameter.name = supplied.lookup parameter.name := by
      rw [lookup_leaveOut, if_neg hname]
    rw [Parameter.defaulting, if_neg hname,
      bindParameter_congr (congrArg (given vars) hsame) fun _ => by rw [hsame]]
    exact bindParameter_same h

theorem names_defaulting (name : String) (value : Value) (parameters : List Parameter) :
    (parameters.map (Parameter.defaulting name value)).map Parameter.name = parameters.map Parameter.name := by
  rw [List.map_map]
  exact List.map_congr_left fun parameter _ => Parameter.name_defaulting name value parameter

/-- Leaving out an argument whose default is the value that the query gives has the same outcome. -/
theorem bindArguments_defaulting (hdeclared : name ∈ parameters.map Parameter.name)
    (hgiven : given vars (supplied.lookup name) = .ok (some value)) :
    Outcome.Agree SameValues
      (registry.bindArguments field (parameters.map (Parameter.defaulting name value)) (leaveOut name supplied) vars)
      (registry.bindArguments field parameters supplied vars) := by
  rw [bindArguments_eq, bindArguments_eq, names_defaulting, undeclared?_leaveOut hdeclared, List.foldlM_map]
  cases undeclared? (parameters.map Parameter.name) (supplied.map Prod.fst) with
  | some undeclared => exact .error _
  | none =>
      refine Outcome.Agree.mapError ?_ _
      exact Outcome.Agree.foldlM (fun _ _ _ _ hsame => bindParameter_defaulting hgiven hsame) rfl

/-- Leaving out an argument makes it one that the query does not give, and no other one. -/
theorem isSupplied_defaulting (hdeclared : name ∈ parameters.map Parameter.name)
    (hgiven : given vars (supplied.lookup name) = .ok (some value)) {omitted : Arguments}
    (homitted : registry.bindArguments field (parameters.map (Parameter.defaulting name value))
      (leaveOut name supplied) vars = .ok omitted)
    (hbound : registry.bindArguments field parameters supplied vars = .ok arguments) :
    omitted.isSupplied name = false ∧ arguments.isSupplied name = true ∧
      ∀ other, other ≠ name → omitted.isSupplied other = arguments.isSupplied other := by
  refine ⟨?_, (isSupplied_iff hbound name).mpr ⟨hdeclared, value, hgiven⟩, fun other hother => ?_⟩
  · rw [Bool.eq_false_iff, Ne, isSupplied_iff homitted, lookup_leaveOut, if_pos rfl]
    rintro ⟨_, _, hnone⟩
    cases hnone
  · rw [Bool.eq_iff_iff, isSupplied_iff homitted, isSupplied_iff hbound, names_defaulting, lookup_leaveOut,
      if_neg hother]

/-- Two bindings have the same values, and differ in this that the query gave an argument of a name in the
second one only. -/
def DifferBySupplied (name : String) (omitted bound : Arguments) : Prop :=
  omitted.values = bound.values ∧ omitted.isSupplied name = false ∧ bound.isSupplied name = true ∧
    ∀ other, other ≠ name → omitted.isSupplied other = bound.isSupplied other

theorem differ_of_default (hdeclared : name ∈ parameters.map Parameter.name)
    (hgiven : given vars (supplied.lookup name) = .ok (some value)) :
    Outcome.Agree (DifferBySupplied name)
      (registry.bindArguments field (parameters.map (Parameter.defaulting name value)) (leaveOut name supplied) vars)
      (registry.bindArguments field parameters supplied vars) :=
  (bindArguments_defaulting hdeclared hgiven).mono_of_ok fun _ _ homitted hbound hvalues =>
    ⟨hvalues, isSupplied_defaulting hdeclared hgiven homitted hbound⟩

/-! ### Ways of delivery -/

/-- Parts of a literal may come as variables of the request with the values of these parts. -/
theorem bindArguments_of_parts {operation : Operation} {request : Members} {parts : String → Option Literal}
    (hvalue : (written.fill parts).evaluate vars = .ok value) (hdefaults : operation.withDefaults request = .ok vars')
    (hkept : ∀ entry ∈ before ++ (name, written.fill parts) :: after, ∀ var ∈ entry.2.used,
      vars'.get? var = vars.get? var)
    (hparts : ∀ var ∈ written.used, ∀ part, parts var = some part →
      ∃ value, part.evaluate vars = .ok value ∧ request.get? var = some value) :
    registry.bindArguments field parameters (before ++ (name, written) :: after) vars' =
      registry.bindArguments field parameters (before ++ (name, written.fill parts) :: after) vars := by
  obtain ⟨hbefore, hrest⟩ := List.forall_mem_append.mp hkept
  obtain ⟨hliteral, hafter⟩ := List.forall_mem_cons.mp hrest
  have hwritten : written.evaluate vars' = .ok value := by
    rw [← hvalue]
    refine (Literal.evaluate_fill written fun var hused => ?_).symm
    cases hpart : parts var with
    | none => rw [Option.getD_none, Literal.evaluate, Literal.evaluate,
        hliteral var (Literal.mem_used_fill hpart written hused)]
    | some part =>
        obtain ⟨value, hvalue, hrequest⟩ := hparts var hused part hpart
        rw [Option.getD_some, hvalue, Literal.evaluate, Operation.get?_of_request hdefaults hrequest]
  exact bindArguments_of_value hvalue hwritten (List.forall_mem_append.mpr ⟨hbefore, hafter⟩)

/-- A literal without variables may come as the default of a variable that the request leaves out. -/
theorem bindArguments_of_default {operation : Operation} {request : Members} {var : String}
    (hvalue : literal.evaluate vars = .ok value) (hdefaults : operation.withDefaults request = .ok vars')
    (hkept : ∀ entry ∈ before ++ after, ∀ var ∈ entry.2.used, vars'.get? var = vars.get? var)
    (hnone : request.get? var = none) (hdefault : operation.default? var = some literal) (hclosed : literal.used = []) :
    registry.bindArguments field parameters (before ++ (name, .variable var) :: after) vars' =
      registry.bindArguments field parameters (before ++ (name, literal) :: after) vars := by
  obtain ⟨default, hempty, hvar⟩ := Operation.get?_of_default hdefaults hnone hdefault
  have hsame : literal.evaluate vars = literal.evaluate [] := by
    refine literal.evaluate_congr fun var hused => ?_
    rw [hclosed] at hused
    cases hused
  rw [hsame, hempty] at hvalue
  cases hvalue
  refine bindArguments_of_value (hsame.trans hempty) ?_ hkept
  rw [Literal.evaluate, hvar]

/-- **The way in which the value of an argument arrives does not matter.** Binding has the same outcome when the
literal of an argument is written in place, when any parts of it come as variables of the request, when
all of it is the default of a variable that the request leaves out, and when it is the default of the
argument, which is then the only one not to count as given. A variable with neither a value nor a
default binds what leaving out the argument binds. -/
theorem delivery_keeps_outcome (registry : RuleRegistry) (field : String) (parameters : List Parameter)
    {name : String} (hdeclared : name ∈ parameters.map Parameter.name) {before after : List (String × Literal)}
    (hfirst : name ∉ before.map Prod.fst) (vars : Members) {literal : Literal}
    (hvars : ∀ var ∈ literal.used, (vars.get? var).isSome = true) :
    let bound := fun written vars =>
      registry.bindArguments field parameters (before ++ (name, written) :: after) vars
    ∃ value, literal.evaluate vars = .ok value ∧
      (∀ arguments, bound literal vars = .ok arguments → arguments.isSupplied name = true) ∧
      (∀ operation request vars', Operation.withDefaults operation request = .ok vars' →
        (∀ entry ∈ before ++ (name, literal) :: after, ∀ var ∈ entry.2.used, vars'.get? var = vars.get? var) →
        (∀ written parts, written.fill parts = literal →
          (∀ var ∈ written.used, ∀ part, parts var = some part →
            ∃ value, part.evaluate vars = .ok value ∧ request.get? var = some value) →
          bound written vars' = bound literal vars) ∧
        (∀ var, request.get? var = none → operation.default? var = some literal → literal.used = [] →
          bound (.variable var) vars' = bound literal vars)) ∧
      Outcome.Agree (DifferBySupplied name)
        (registry.bindArguments field (parameters.map (Parameter.defaulting name value))
          (leaveOut name (before ++ after)) vars)
        (bound literal vars) ∧
      (∀ operation request vars' var, Operation.withDefaults operation request = .ok vars' →
        request.get? var = none → operation.default? var = none →
        ∀ arguments, bound (.variable var) vars' = .ok arguments ↔
          registry.bindArguments field parameters (leaveOut name (before ++ after)) vars' = .ok arguments) := by
  intro bound
  have hbefore : before.lookup name = none := by
    refine List.lookup_eq_none_iff.mpr fun entry hmem => ?_
    rw [bne_iff_ne]
    rintro rfl
    exact hfirst (List.mem_map_of_mem hmem)
  have hlookup : ∀ written, (before ++ (name, written) :: after).lookup name = some written := by
    intro written
    rw [List.lookup_append, hbefore, Option.none_or, Keyed.lookup_entry, if_pos rfl]
  obtain ⟨value, hvalue⟩ := literal.exists_evaluate hvars
  have hgiven : given vars ((before ++ (name, literal) :: after).lookup name) = .ok (some value) := by
    rw [hlookup]
    exact given_of_evaluate hvalue
  refine ⟨value, hvalue, fun arguments h => (isSupplied_iff h name).mpr ⟨hdeclared, value, hgiven⟩,
    fun operation request vars' hdefaults hkept => ⟨?_, ?_⟩, ?_, ?_⟩
  · rintro written parts rfl hparts
    exact bindArguments_of_parts hvalue hdefaults hkept hparts
  · intro var hnone hdefault hclosed
    obtain ⟨hbefore, hrest⟩ := List.forall_mem_append.mp hkept
    exact bindArguments_of_default hvalue hdefaults
      (List.forall_mem_append.mpr ⟨hbefore, (List.forall_mem_cons.mp hrest).2⟩) hnone hdefault hclosed
  · rw [← leaveOut_entry]
    exact differ_of_default hdeclared hgiven
  · intro operation request vars' var hdefaults hnone hdefault arguments
    rw [← leaveOut_entry]
    exact bindArguments_of_unset hdeclared (Operation.get?_of_unset hdefaults hnone hdefault) (hlookup _)

/-- A list, one item of which is a variable: its other item as a variable as well, all of it as a default of the
argument, a shorter list as the default of a variable, and a variable that has no value. -/
theorem crew_delivered :
    let parameters : Option Value → List Parameter := fun default? =>
      [⟨"min", .named "Int", none⟩, ⟨"in", .list (.nonNull (.named "Int")), default?⟩]
    let bound := fun written vars =>
      builtIn.bindArguments "crew" (parameters none) [("min", .variable "m"), ("in", written)] vars
    let vars : Members := [("m", .int 3)]
    bound (.list [.variable "a", .variable "m"]) [("a", .int 1), ("m", .int 3)] =
        bound (.list [.int 1, .variable "m"]) vars ∧
      bound (.variable "d") [("d", .array [.int 1]), ("m", .int 3)] = bound (.list [.int 1]) vars ∧
      Outcome.Agree (DifferBySupplied "in")
        (builtIn.bindArguments "crew" (parameters (some (.array [.int 1, .int 3]))) [("min", .variable "m")] vars)
        (bound (.list [.int 1, .variable "m"]) vars) ∧
      ∀ arguments, bound (.variable "u") vars = .ok arguments ↔
        builtIn.bindArguments "crew" (parameters none) [("min", .variable "m")] vars = .ok arguments := by
  intro parameters bound vars
  have hdelivery literal := @delivery_keeps_outcome builtIn "crew" (parameters none) "in" (by decide)
    [("min", .variable "m")] [] (by decide) vars literal
  obtain ⟨value, hvalue, _, hways, homitted, hunset⟩ := hdelivery (.list [.int 1, .variable "m"]) (by decide)
  obtain ⟨_, _, _, hclosed, _⟩ := hdelivery (.list [.int 1]) (by decide)
  cases hvalue
  have hm : ∀ literal : Literal, (∀ var ∈ literal.used, var = "m") →
      ∀ entry ∈ [("min", .variable "m"), ("in", literal)], ∀ var ∈ entry.2.used, var = "m" := by
    intro literal hliteral
    exact List.forall_mem_cons.mpr ⟨by decide, List.forall_mem_cons.mpr ⟨hliteral, nofun⟩⟩
  let plain : Operation := ⟨.query, none, [], []⟩
  let defaulted : Operation := ⟨.query, none, [⟨"d", .named "Int", some (.list [.int 1])⟩], []⟩
  refine ⟨?_, ?_, homitted, hunset plain vars vars "u" rfl rfl rfl⟩
  · refine (hways plain _ _ rfl ?_).1 _ (fun var => if var = "a" then some (.int 1) else none) rfl ?_
    · intro entry hmem var hused
      rw [hm (.list [.int 1, .variable "m"]) (by decide) entry hmem var hused]
      rfl
    · intro var hused part hpart
      split at hpart
      · next hvar =>
          cases hpart
          exact ⟨.int 1, rfl, by rw [hvar]; rfl⟩
      · cases hpart
  · refine (hclosed defaulted vars _ rfl fun entry hmem var hused => ?_).2 "d" rfl rfl rfl
    rw [hm (.list [.int 1]) (by decide) entry hmem var hused]
    rfl

end RuleRegistry

end GraphQuery
