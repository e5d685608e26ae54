import GraphQuery.Input.Coercion
import GraphQuery.Proofs.Document.Literal
import GraphQuery.Proofs.Keyed

/-! Binding the arguments of a selection is one pass over the declared ones. Each of them reads the literal
under its own name and the variables of this literal, and adds one value under its name; the query
counts as having given the argument where the literal has a value. -/

namespace GraphQuery

namespace Parameter

theorem isNone_find?_iff {parameters : List Parameter} {name : String} :
    (find? parameters name).isNone = true ↔ name ∉ parameters.map Parameter.name := by
  rw [Option.isNone_iff_eq_none, find?, List.find?_eq_none, List.mem_map, not_exists]
  refine forall_congr' fun parameter => ?_
  rw [beq_iff_eq, not_and]

theorem resolve_ok {earlier : List Parameter} {spec : ParameterSpec} {parameter : Parameter}
    (h : resolve earlier spec = .ok parameter) :
    parameter.name = spec.name ∧ spec.name ∉ earlier.map Parameter.name := by
  unfold resolve at h
  split at h
  · cases h
  · split at h
    · cases h
    · next hnew =>
        obtain ⟨type, _, rfl⟩ := Outcome.map_ok_iff.mp h
        exact ⟨rfl, isNone_find?_iff.mp (by rwa [Option.isNone_iff_eq_none, ← Option.not_isSome_iff_eq_none])⟩

/-- Declared arguments have names of their own. -/
theorem names_nodup {specs : List ParameterSpec} {parameters : List Parameter}
    (h : resolveAll specs = .ok parameters) : (parameters.map Parameter.name).Nodup := by
  refine Outcome.foldlM_preserves (fun earlier => (earlier.map Parameter.name).Nodup) ?_ List.nodup_nil h
  intro spec _ earlier next hearlier hnext
  obtain ⟨parameter, hresolve, rfl⟩ := Outcome.map_ok_iff.mp hnext
  obtain ⟨hname, hnew⟩ := resolve_ok hresolve
  rw [List.map_append, List.map_singleton, List.nodup_append_comm, List.singleton_append, List.nodup_cons, hname]
  exact ⟨hnew, hearlier⟩

end Parameter

namespace RuleRegistry

variable {registry : RuleRegistry} {field : String} {parameters : List Parameter} {parameter : Parameter}
  {supplied supplied' : List (String × Literal)} {vars vars' : Members} {bound next arguments : Arguments}

/-! ### The value that the query gives -/

theorem given_of_evaluate {literal : Literal} {value : Value} (h : literal.evaluate vars = .ok value) :
    given vars (some literal) = .ok (some value) := by
  cases literal with
  | «variable» name =>
      rw [Literal.evaluate] at h
      split at h
      · next hvalue =>
          cases h
          exact congrArg Except.ok hvalue
      · cases h
  | _ => simp only [given, Literal.asVariable?, h]

theorem given_congr {literal : Literal} (h : ∀ var ∈ literal.used, vars'.get? var = vars.get? var) :
    given vars' (some literal) = given vars (some literal) := by
  have hvalue := literal.evaluate_congr h
  cases literal with
  | «variable» name => exact congrArg Except.ok (h name (List.mem_singleton_self name))
  | _ => simp only [given, Literal.asVariable?, hvalue]

/-- The query has no value for an argument: it leaves the argument out, or gives a variable without one. -/
def Unsupplied (supplied : List (String × Literal)) (vars : Members) (name : String) : Prop :=
  supplied.lookup name = none ∨ ∃ var, supplied.lookup name = some (.variable var) ∧ vars.get? var = none

theorem given_of_unsupplied {name : String} (h : Unsupplied supplied vars name) :
    given vars (supplied.lookup name) = .ok none := by
  rcases h with hnone | ⟨var, hsome, hvar⟩
  · rw [hnone]
    rfl
  · rw [hsome]
    exact congrArg Except.ok hvar

/-! ### One argument -/

theorem bindParameter_of_given {raw : Value} (h : given vars (supplied.lookup parameter.name) = .ok (some raw)) :
    registry.bindParameter supplied vars bound parameter =
      (registry.coerce parameter.name parameter.type raw).map (bound.insert parameter.name) := by
  unfold bindParameter
  simp only [h]
  change (registry.coerce parameter.name parameter.type raw >>= fun value =>
    pure (bound.insert parameter.name value)) = _
  cases registry.coerce parameter.name parameter.type raw <;> rfl

theorem bindParameter_of_none (h : given vars (supplied.lookup parameter.name) = .ok none) :
    registry.bindParameter supplied vars bound parameter =
      (registry.omitted parameter (supplied.lookup parameter.name)).map (bound.bind parameter.name) := by
  unfold bindParameter
  simp only [h]
  change (registry.omitted parameter (supplied.lookup parameter.name) >>= fun value =>
    pure (bound.bind parameter.name value)) = _
  cases registry.omitted parameter (supplied.lookup parameter.name) <;> rfl

theorem bindParameter_of_error {fault : ArgumentFault}
    (h : given vars (supplied.lookup parameter.name) = .error fault) :
    registry.bindParameter supplied vars bound parameter = .error fault := by
  unfold bindParameter
  simp only [h]
  rfl

/-- An argument that is bound has got a value from the query, or else the one for an argument that is left
out. -/
theorem bindParameter_ok (h : registry.bindParameter supplied vars bound parameter = .ok next) :
    (∃ raw value, given vars (supplied.lookup parameter.name) = .ok (some raw) ∧
      registry.coerce parameter.name parameter.type raw = .ok value ∧ next = bound.insert parameter.name value) ∨
    (∃ value, given vars (supplied.lookup parameter.name) = .ok none ∧
      registry.omitted parameter (supplied.lookup parameter.name) = .ok value ∧
      next = bound.bind parameter.name value) := by
  cases hgiven : given vars (supplied.lookup parameter.name) with
  | error fault =>
      rw [bindParameter_of_error hgiven] at h
      cases h
  | ok raw? =>
      cases raw? with
      | some raw =>
          rw [bindParameter_of_given hgiven] at h
          obtain ⟨value, hvalue, rfl⟩ := Outcome.map_ok_iff.mp h
          exact Or.inl ⟨raw, value, rfl, hvalue, rfl⟩
      | none =>
          rw [bindParameter_of_none hgiven] at h
          obtain ⟨value, hvalue, rfl⟩ := Outcome.map_ok_iff.mp h
          exact Or.inr ⟨value, rfl, hvalue, rfl⟩

/-- An argument is bound alike when the query gives it the same, or leaves it out in the same way. -/
theorem bindParameter_congr
    (hgiven : given vars' (supplied'.lookup parameter.name) = given vars (supplied.lookup parameter.name))
    (homitted : given vars (supplied.lookup parameter.name) = .ok none →
      registry.omitted parameter (supplied'.lookup parameter.name) =
        registry.omitted parameter (supplied.lookup parameter.name)) :
    registry.bindParameter supplied' vars' bound parameter = registry.bindParameter supplied vars bound parameter := by
  cases h : given vars (supplied.lookup parameter.name) with
  | error fault => rw [bindParameter_of_error h, bindParameter_of_error (hgiven.trans h)]
  | ok raw? =>
      cases raw? with
      | some raw => rw [bindParameter_of_given h, bindParameter_of_given (hgiven.trans h)]
      | none => rw [bindParameter_of_none h, bindParameter_of_none (hgiven.trans h), homitted h]

/-! ### All arguments -/

/-- The first of some names that is not declared. -/
def undeclared? (declared names : List String) : Option String :=
  names.find? fun name => decide (name ∉ declared)

theorem exists_undeclared {declared names : List String} {name : String} (hmem : name ∈ names)
    (hnew : name ∉ declared) : ∃ first, undeclared? declared names = some first :=
  Option.isSome_iff_exists.mp (List.find?_isSome.mpr ⟨name, hmem, decide_eq_true hnew⟩)

theorem undeclared?_some {declared names : List String} {name : String} (h : undeclared? declared names = some name) :
    name ∈ names ∧ name ∉ declared := by
  have hnew : decide (name ∉ declared) = true := @List.find?_some _ (fun name => decide (name ∉ declared)) _ _ h
  exact ⟨List.mem_of_find?_eq_some h, of_decide_eq_true hnew⟩

/-- Binding refuses a name that is not declared before it looks at any value. -/
theorem bindArguments_eq :
    registry.bindArguments field parameters supplied vars =
      match undeclared? (parameters.map Parameter.name) (supplied.map Prod.fst) with
      | some name => .error ⟨field, .unknown name⟩
      | none =>
        (parameters.foldlM (registry.bindParameter supplied vars) .empty).mapError (ArgumentError.mk field) := by
  have hundeclared : undeclared? (parameters.map Parameter.name) (supplied.map Prod.fst) =
      (supplied.find? fun entry => (Parameter.find? parameters entry.1).isNone).map Prod.fst := by
    rw [undeclared?, List.find?_map]
    refine congrArg _ (congrArg (List.find? · supplied) (funext fun entry => ?_))
    rw [Function.comp_apply, Bool.eq_iff_iff, decide_eq_true_iff, Parameter.isNone_find?_iff]
  unfold bindArguments
  rw [hundeclared]
  cases supplied.find? fun entry => (Parameter.find? parameters entry.1).isNone with
  | some entry => rfl
  | none => rfl

/-- Arguments that are bound have come through the whole pass. -/
theorem bindArguments_ok (h : registry.bindArguments field parameters supplied vars = .ok arguments) :
    parameters.foldlM (registry.bindParameter supplied vars) Arguments.empty = .ok arguments := by
  rw [bindArguments_eq] at h
  split at h
  · cases h
  · exact Outcome.mapError_ok_iff.mp h

/-- Arguments that cannot be bound fail with a fault of their field. -/
theorem error_of_not_ok (h : ∀ arguments, registry.bindArguments field parameters supplied vars ≠ .ok arguments) :
    ∃ fault, registry.bindArguments field parameters supplied vars = .error ⟨field, fault⟩ := by
  cases hbind : registry.bindArguments field parameters supplied vars with
  | ok arguments => exact absurd hbind (h arguments)
  | error error =>
      obtain ⟨fault, _, rfl⟩ := Outcome.mapError_error_iff.mp hbind
      exact ⟨fault, rfl⟩

/-- One step gives its own argument exactly when the query has a value for it, and no other argument. -/
theorem isSupplied_of_bindParameter (h : registry.bindParameter supplied vars bound parameter = .ok next)
    (name : String) : next.isSupplied name = true ↔ bound.isSupplied name = true ∨
      name = parameter.name ∧ ∃ value, given vars (supplied.lookup name) = .ok (some value) := by
  rcases bindParameter_ok h with ⟨raw, value, hgiven, _, rfl⟩ | ⟨value, hgiven, _, rfl⟩
  · have hown : name = parameter.name → ∃ value, given vars (supplied.lookup name) = .ok (some value) := by
      rintro rfl
      exact ⟨raw, hgiven⟩
    show (parameter.name :: bound.supplied).contains name = true ↔ bound.supplied.contains name = true ∨ _
    rw [and_iff_left_of_imp hown, List.contains_cons, Bool.or_eq_true, beq_iff_eq, or_comm]
  · refine (or_iff_left ?_).symm
    rintro ⟨rfl, _, hvalue⟩
    rw [hgiven] at hvalue
    cases hvalue

/-- An argument counts as given by the query when it is declared and the query has a value for it. -/
theorem isSupplied_iff (h : registry.bindArguments field parameters supplied vars = .ok arguments) (name : String) :
    arguments.isSupplied name = true ↔
      name ∈ parameters.map Parameter.name ∧ ∃ value, given vars (supplied.lookup name) = .ok (some value) := by
  refine Outcome.foldlM_records (fun before bound => bound.isSupplied name = true ↔
    name ∈ before.map Parameter.name ∧ ∃ value, given vars (supplied.lookup name) = .ok (some value)) ?_ ?_
    (bindArguments_ok h)
  · intro before parameter bound next hbefore hnext
    rw [isSupplied_of_bindParameter hnext, hbefore, List.map_append, List.mem_append, List.map_singleton,
      List.mem_singleton, or_and_right]
  · constructor
    · intro hempty
      cases hempty
    · rintro ⟨hmem, _⟩
      cases hmem

/-! ### Entries -/

/-- Entries bind the arguments in their order, each to a value of which something holds. -/
def Entries (holds : Parameter → Value → Prop) (parameters : List Parameter) (entries : List (String × Value)) : Prop :=
  List.Forall₂ (fun parameter entry => entry.1 = parameter.name ∧ holds parameter entry.2) parameters entries

variable {holds : Parameter → Value → Prop} {entries : List (String × Value)}

theorem names_of_entries (h : Entries holds parameters entries) :
    entries.map Prod.fst = parameters.map Parameter.name := by
  induction h with
  | nil => rfl
  | cons hentry _ ih => rw [List.map_cons, List.map_cons, hentry.1, ih]

/-- Of entries something else may be shown, where the value of each one is found under its name. -/
theorem Entries.mono {other : Parameter → Value → Prop} (hnames : (parameters.map Parameter.name).Nodup)
    (h : Entries holds parameters entries)
    (himp : ∀ parameter ∈ parameters, ∀ value, entries.lookup parameter.name = some value →
      holds parameter value → other parameter value) : Entries other parameters entries := by
  have hkeys : (entries.map Prod.fst).Nodup := by rwa [names_of_entries h]
  obtain ⟨hlength, hpairs⟩ := List.forall₂_iff_zip.mp h
  refine List.forall₂_iff_zip.mpr ⟨hlength, fun {parameter entry} hmem => ?_⟩
  obtain ⟨hname, hholds⟩ := hpairs hmem
  obtain ⟨hparameter, hentry⟩ := List.of_mem_zip hmem
  refine ⟨hname, himp parameter hparameter entry.2 ?_ hholds⟩
  rw [← hname]
  exact Keyed.lookup_of_mem hkeys hentry

/-- Where each argument adds a value of which something holds, the pass leaves one entry for each argument. -/
theorem entries_of_bindArguments (hnames : (parameters.map Parameter.name).Nodup)
    (hstep : ∀ parameter ∈ parameters, ∀ bound next, registry.bindParameter supplied vars bound parameter = .ok next →
      ∃ value, holds parameter value ∧ next.values = Keyed.put parameter.name value bound.values)
    (h : registry.bindArguments field parameters supplied vars = .ok arguments) :
    Entries holds parameters arguments.values := by
  have hstart : Entries holds [] Arguments.empty.values := .nil
  refine Outcome.foldlM_records (fun before bound => (before.map Parameter.name).Nodup →
    (∀ parameter ∈ before, parameter ∈ parameters) → Entries holds before bound.values) ?_
    (fun _ _ => hstart) (bindArguments_ok h) hnames (fun _ hmem => hmem)
  intro before parameter bound next hbefore hnext hnames hall
  obtain ⟨hearlier, hown⟩ := List.forall_mem_append.mp hall
  rw [List.map_append, List.nodup_append_comm, List.map_singleton, List.singleton_append, List.nodup_cons] at hnames
  have hentries := hbefore hnames.2 hearlier
  obtain ⟨value, hvalue, hvalues⟩ := hstep parameter (hown parameter (List.mem_singleton_self _)) bound next hnext
  have hnew : parameter.name ∉ bound.values.map Prod.fst := by
    rw [names_of_entries hentries]
    exact hnames.1
  rw [hvalues, Keyed.put_of_notMem value hnew]
  exact List.rel_append hentries (.cons ⟨rfl, hvalue⟩ .nil)

/-- An argument is bound to a value, whatever has been bound before. -/
def Yields (registry : RuleRegistry) (supplied : List (String × Literal)) (vars : Members) (parameter : Parameter)
    (value : Value) : Prop :=
  ∀ bound, ∃ next, registry.bindParameter supplied vars bound parameter = .ok next ∧
    next.values = Keyed.put parameter.name value bound.values

/-- A bound argument adds a value that does not hang on what has been bound before. It comes out of coercion, or
is the one for an argument that is left out. -/
theorem yields_of_bindParameter (h : registry.bindParameter supplied vars bound parameter = .ok next) :
    ∃ value, registry.Yields supplied vars parameter value ∧
      ((∃ raw, registry.coerce parameter.name parameter.type raw = .ok value) ∨
        registry.omitted parameter (supplied.lookup parameter.name) = .ok value) ∧
      next.values = Keyed.put parameter.name value bound.values := by
  rcases bindParameter_ok h with ⟨raw, value, hgiven, hvalue, rfl⟩ | ⟨value, hgiven, hvalue, rfl⟩
  · refine ⟨value, fun bound => ⟨bound.insert parameter.name value, ?_, rfl⟩, Or.inl ⟨raw, hvalue⟩, rfl⟩
    rw [bindParameter_of_given hgiven, hvalue]
    rfl
  · refine ⟨value, fun bound => ⟨bound.bind parameter.name value, ?_, rfl⟩, Or.inr hvalue, rfl⟩
    rw [bindParameter_of_none hgiven, hvalue]
    rfl

/-- Where each argument is bound to a value and none is undeclared, the pass ends with these values. -/
theorem bindArguments_of_entries (hnames : (parameters.map Parameter.name).Nodup)
    (hdeclared : ∀ entry ∈ supplied, entry.1 ∈ parameters.map Parameter.name)
    (h : Entries (registry.Yields supplied vars) parameters entries) :
    ∃ arguments, registry.bindArguments field parameters supplied vars = .ok arguments ∧
      arguments.values = entries := by
  have hpass : ∀ bound : Arguments, (∀ parameter ∈ parameters, parameter.name ∉ bound.values.map Prod.fst) →
      ∃ arguments, parameters.foldlM (registry.bindParameter supplied vars) bound = .ok arguments ∧
        arguments.values = bound.values ++ entries := by
    clear hdeclared
    induction h with
    | nil => exact fun bound _ => ⟨bound, rfl, (List.append_nil _).symm⟩
    | @cons parameter entry parameters entries hentry _ ih =>
        intro bound hfree
        obtain ⟨hname, hyields⟩ := hentry
        obtain ⟨hfirst, hrest⟩ := List.nodup_cons.mp hnames
        obtain ⟨next, hnext, hvalues⟩ := hyields bound
        rw [Keyed.put_of_notMem _ (hfree parameter List.mem_cons_self), ← hname] at hvalues
        obtain ⟨arguments, harguments, hend⟩ := ih hrest next fun other hmem => by
          rw [hvalues, List.map_append, List.mem_append, List.map_singleton, List.mem_singleton, not_or]
          refine ⟨hfree other (List.mem_cons_of_mem _ hmem), fun hsame => hfirst ?_⟩
          rw [← hname, ← hsame]
          exact List.mem_map_of_mem hmem
        refine ⟨arguments, ?_, ?_⟩
        · rw [List.foldlM_cons, hnext]
          exact harguments
        · rw [hend, hvalues, List.append_assoc, List.singleton_append]
  have hnone : undeclared? (parameters.map Parameter.name) (supplied.map Prod.fst) = none := by
    refine List.find?_eq_none.mpr fun name hmem => ?_
    obtain ⟨entry, hentry, rfl⟩ := List.mem_map.mp hmem
    rw [decide_eq_true_iff, not_not]
    exact hdeclared entry hentry
  obtain ⟨arguments, harguments, hvalues⟩ := hpass .empty fun _ _ => List.not_mem_nil
  refine ⟨arguments, ?_, hvalues⟩
  rw [bindArguments_eq, hnone, harguments]
  rfl

end RuleRegistry

end GraphQuery
