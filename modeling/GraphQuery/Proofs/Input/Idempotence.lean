import GraphQuery.Proofs.Input.Conformance
import GraphQuery.Proofs.Text.Timestamp
import GraphQuery.Proofs.Text.Uuid

/-! Coercion settles a value: under the same type, what comes out of it is left as it is. So are the values of
arguments that are left out, and the arguments of a selection can be given once more as variables,
all of them or some, without a change in any value. Timestamps are set apart: they settle as long as
universal time does not carry them out of the years of four digits. -/

namespace GraphQuery

namespace Value

theorem isNull_eq_false {value : Value} (h : value ≠ .null) : value.isNull = false := by
  cases value with
  | null => exact absurd rfl h
  | _ => rfl

end Value

namespace StandardRule

variable {kind : StandardRule} {value result : Value}

theorem int_apply {i : Int} (hlow : -0x80000000 ≤ i) (hhigh : i < 0x80000000) : Rule.int.apply (.int i) = .ok (.int i) := by
  have hwide : (Value.int i).asInt64? = some i := by
    simp only [Value.int, Value.asInt64?, Number.toInt64?]
    rw [if_pos (by omega)]
  simp only [Rule.int, Rule.custom, hwide]
  rw [if_pos ⟨hlow, hhigh⟩]

/-- A rule, the one of timestamps apart, leaves its own results as they are. -/
theorem apply_of_apply (hkind : kind ≠ .dateTime) (h : kind.rule.apply value = .ok result) :
    kind.rule.apply result = .ok result := by
  have hrange := range_of_apply h
  cases kind with
  | int =>
      obtain ⟨i, hlow, hhigh, rfl⟩ := hrange
      exact int_apply hlow hhigh
  | float | string | boolean | id =>
      obtain ⟨_, rfl⟩ := hrange
      rfl
  | enumeration values =>
      obtain ⟨s, hmem, rfl⟩ := hrange
      exact if_pos (List.contains_iff_mem.mpr hmem)
  | uuid =>
      simp only [rule, Rule.uuid, Rule.custom] at h ⊢
      split at h
      · split at h
        · next hnormal =>
            cases h
            simp only [Text.Uuid.normalize?_of_normalize? hnormal]
        · cases h
      · cases h
  | dateTime => exact absurd rfl hkind

/-- What stands for an argument that is left out is null, or left as it is by the rule. -/
theorem apply_zero (kind : StandardRule) :
    kind.rule.zero = .null ∨ kind.rule.apply kind.rule.zero = .ok kind.rule.zero := by
  cases kind with
  | uuid | dateTime | enumeration _ => exact Or.inl rfl
  | int => exact Or.inr (int_apply (by decide) (by decide))
  | _ => exact Or.inr rfl

end StandardRule

/-! ### Timestamps -/

namespace Rule

open Text

variable {s : String} {result : Value}

theorem dateTime_ok_iff : Rule.dateTime.apply (.string s) = .ok result ↔
    ∃ t, Timestamp.read? s.toList = some t ∧ .string (String.ofList t.text) = result := by
  simp only [Rule.dateTime, Rule.custom, Timestamp.normalize?]
  cases Timestamp.read? s.toList with
  | none => simp
  | some t => simp

theorem dateTime_of_none (h : Timestamp.read? s.toList = none) :
    Rule.dateTime.apply (.string s) = .error .malformedTimestamp := by
  simp only [Rule.dateTime, Rule.custom, Timestamp.normalize?, h, Option.map_none]

/-- **The rule of timestamps leaves its own result as it is exactly if the year in universal time has four
digits.** Any other result is refused; it lies in the day before the first of these years, or in the
one after the last. -/
theorem dateTime_settles_iff (h : Rule.dateTime.apply (.string s) = .ok result) :
    ∃ t, Timestamp.read? s.toList = some t ∧ result = .string (String.ofList t.text) ∧
      (Rule.dateTime.apply result = .ok result ↔ t.date.FourDigits) ∧
      (¬t.date.FourDigits → Rule.dateTime.apply result = .error .malformedTimestamp ∧
        (t.date = ⟨-1, 12, 31⟩ ∨ t.date = ⟨10000, 1, 1⟩)) := by
  obtain ⟨t, ht, rfl⟩ := dateTime_ok_iff.mp h
  obtain ⟨hformed, hyear⟩ := Timestamp.read?_ok ht
  have hrefused : ¬t.date.FourDigits →
      Rule.dateTime.apply (.string (String.ofList t.text)) = .error .malformedTimestamp := fun hdigits =>
    dateTime_of_none (by rw [String.toList_ofList, Timestamp.read?_text_signed hdigits])
  refine ⟨t, ht, rfl, ⟨fun hsettled => ?_, fun hdigits => ?_⟩, fun hdigits =>
    ⟨hrefused hdigits, hyear.resolve_left hdigits⟩⟩
  · by_cases hdigits : t.date.FourDigits
    · exact hdigits
    · rw [hrefused hdigits] at hsettled
      cases hsettled
  · exact dateTime_ok_iff.mpr ⟨t, by rw [String.toList_ofList, Timestamp.read?_text hformed hdigits], rfl⟩

/-- A leap second in the evening before, with ten digits of a fraction, one too many. -/
theorem leap_second_settles :
    let written := Value.string "2016-12-31T22:29:60.123456789+00:00"
    Rule.dateTime.apply (.string "2016-12-31t23:59:60.1234567899+01:30") = .ok written ∧
      Rule.dateTime.apply written = .ok written := by
  intro written
  have hread : Timestamp.read? "2016-12-31t23:59:60.1234567899+01:30".toList =
      some ⟨⟨2016, 12, 31⟩, 1349, 60, 123456789⟩ := by decide +kernel
  have happly : Rule.dateTime.apply (.string "2016-12-31t23:59:60.1234567899+01:30") = .ok written :=
    dateTime_ok_iff.mpr ⟨_, hread, congrArg Value.string (by decide +kernel)⟩
  obtain ⟨t, ht, _, hsettles, _⟩ := dateTime_settles_iff happly
  rw [hread] at ht
  cases ht
  exact ⟨happly, hsettles.mpr ⟨by decide, by decide⟩⟩

/-- The first minute of the first year, a minute east of universal time, is written in the year before, and that
is refused; so is what is written for the last second of the last year, a minute west. -/
theorem first_minute_unsettled :
    Rule.dateTime.apply (.string "0000-01-01T00:00:00+00:01") = .ok (.string "-0001-12-31T23:59:00+00:00") ∧
      Rule.dateTime.apply (.string "-0001-12-31T23:59:00+00:00") = .error .malformedTimestamp ∧
      Rule.dateTime.apply (.string "9999-12-31T23:59:59-00:01") = .ok (.string "+10000-01-01T00:00:59+00:00") ∧
      Rule.dateTime.apply (.string "+10000-01-01T00:00:59+00:00") = .error .malformedTimestamp :=
  ⟨rfl, rfl, rfl, rfl⟩

end Rule

namespace RuleRegistry

variable {registry : RuleRegistry} {kinds : String → StandardRule} {argument : String} {type : TypeRef}
  {value result : Value}

/-! ### Values -/

theorem coerce_null {name : String} : registry.coerce argument (.named name) .null = .ok .null := by
  simp only [coerce, Value.isNull, if_true]

theorem coerce_named_of_apply {name : String} {rule : Rule} (hfound : registry.find? name = some rule)
    (hvalue : value ≠ .null) (happly : rule.apply value = .ok result) :
    registry.coerce argument (.named name) value = .ok result := by
  have hrule : registry.rule argument name = .ok rule := by
    simp only [RuleRegistry.rule, hfound]
  rw [coerce, Value.isNull_eq_false hvalue, hrule]
  simp only [happly, bind, Except.bind, Bool.false_eq_true, if_false]

theorem coerce_nonNull (hvalue : value ≠ .null) :
    registry.coerce argument (.nonNull type) value = registry.coerce argument type value := by
  rw [coerce, Value.isNull_eq_false hvalue]
  rfl

theorem coerce_array {values : List Value} (h : ∀ value ∈ values, registry.coerce argument type value = .ok value) :
    registry.coerce argument (.list type) (.array values) = .ok (.array values) := by
  have hself : values.mapM (registry.coerce argument type) = .ok (values.map id) := Outcome.mapM_ok_of h
  rw [coerce, hself, List.map_id]
  rfl

/-- Coercion leaves its own results as they are. -/
theorem coerce_of_coerce (hfollows : registry.Follows kinds type.innermost)
    (hkind : kinds type.innermost ≠ .dateTime) (h : registry.coerce argument type value = .ok result) :
    registry.coerce argument type result = .ok result := by
  induction type generalizing value result with
  | named name =>
      rcases coerce_named_ok h with ⟨_, rfl⟩ | ⟨rule, hfound, happly⟩
      · exact coerce_null
      · have hrule := hfollows rule hfound
        subst hrule
        have hresult := StandardRule.range_ne_null (StandardRule.range_of_apply happly)
        exact coerce_named_of_apply hfound hresult (StandardRule.apply_of_apply hkind happly)
  | list item ih =>
      unfold coerce at h
      split at h
      · cases h
        rfl
      · obtain ⟨results, hresults, rfl⟩ := Outcome.map_ok_iff.mp h
        refine coerce_array fun value hmem => ?_
        obtain ⟨_, _, hvalue⟩ := (Outcome.mem_of_mapM hresults).mp hmem
        exact ih hfollows hkind hvalue
      · obtain ⟨value, hvalue, rfl⟩ := Outcome.map_ok_iff.mp h
        refine coerce_array fun other hmem => ?_
        rw [List.mem_singleton.mp hmem]
        exact ih hfollows hkind hvalue
  | nonNull inner ih =>
      obtain ⟨hresult, _⟩ := (accepts_of_coerce hfollows h).1
      rw [coerce_nonNull hresult]
      unfold coerce at h
      split at h
      · cases h
      · exact ih hfollows hkind h

theorem coerce_zeroValue (hfollows : registry.Follows kinds type.innermost) (hnull : type.isNonNull = false)
    (h : registry.zeroValue argument type = .ok value) : registry.coerce argument type value = .ok value := by
  cases type with
  | named name =>
      obtain ⟨rule, hrule, rfl⟩ := Outcome.map_ok_iff.mp h
      have hfound := rule_ok hrule
      have hrule := hfollows rule hfound
      by_cases hzero : rule.zero = .null
      · rw [hzero]
        exact coerce_null
      · rw [hrule] at hzero hfound ⊢
        exact coerce_named_of_apply hfound hzero ((kinds name).apply_zero.resolve_left hzero)
  | list item =>
      cases h
      exact coerce_array fun _ hmem => absurd hmem List.not_mem_nil
  | nonNull inner => cases hnull

/-! ### Arguments -/

variable {field : String} {parameters : List Parameter} {parameter : Parameter}
  {supplied supplied' : List (String × Literal)} {vars vars' : Members} {bound next arguments : Arguments}

theorem coerce_omitted (hfollows : registry.Follows kinds parameter.type.innermost)
    (hkind : kinds parameter.type.innermost ≠ .dateTime) {literal? : Option Literal}
    (h : registry.omitted parameter literal? = .ok value) :
    registry.coerce parameter.name parameter.type value = .ok value := by
  unfold omitted at h
  split at h
  · exact coerce_of_coerce hfollows hkind h
  · split at h
    · split at h <;> cases h
    · next hnull => exact coerce_zeroValue hfollows (eq_false_of_ne_true hnull) h

/-- The value of a bound argument does not hang on what has been bound before, and coercion leaves it as it is. -/
theorem settled_of_bindParameter (hfollows : registry.Follows kinds parameter.type.innermost)
    (hkind : kinds parameter.type.innermost ≠ .dateTime)
    (h : registry.bindParameter supplied vars bound parameter = .ok next) :
    ∃ value, (registry.Yields supplied vars parameter value ∧
      registry.coerce parameter.name parameter.type value = .ok value) ∧
        next.values = Keyed.put parameter.name value bound.values := by
  obtain ⟨value, hyields, ⟨_, hvalue⟩ | homitted, hvalues⟩ := yields_of_bindParameter h
  · exact ⟨value, ⟨hyields, coerce_of_coerce hfollows hkind hvalue⟩, hvalues⟩
  · exact ⟨value, ⟨hyields, coerce_omitted hfollows hkind homitted⟩, hvalues⟩

/-- An argument is given as before, with the same variables, or the value that it has got is given once more as a
variable. -/
def GivenAgain (arguments : Arguments) (supplied supplied' : List (String × Literal)) (vars vars' : Members)
    (name : String) : Prop :=
  (supplied'.lookup name = supplied.lookup name ∧
    ∀ literal, supplied.lookup name = some literal → ∀ var ∈ literal.used, vars'.get? var = vars.get? var) ∨
  ∃ var, supplied'.lookup name = some (.variable var) ∧ vars'.get? var = arguments.get? name

theorem yields_again (hyields : registry.Yields supplied vars parameter value)
    (hsettled : registry.coerce parameter.name parameter.type value = .ok value)
    (hvalue : arguments.get? parameter.name = some value)
    (hagain : GivenAgain arguments supplied supplied' vars vars' parameter.name) :
    registry.Yields supplied' vars' parameter value := by
  intro bound
  rcases hagain with ⟨hlookup, hvars⟩ | ⟨var, hlookup, hvar⟩
  · have hgiven : given vars' (supplied'.lookup parameter.name) = given vars (supplied.lookup parameter.name) := by
      rw [hlookup]
      cases hliteral : supplied.lookup parameter.name with
      | none => rfl
      | some literal => exact given_congr (hvars literal hliteral)
    rw [bindParameter_congr hgiven fun _ => by rw [hlookup]]
    exact hyields bound
  · have hgiven : given vars' (supplied'.lookup parameter.name) = .ok (some value) := by
      rw [hlookup, ← hvalue, ← hvar]
      rfl
    refine ⟨bound.insert parameter.name value, ?_, rfl⟩
    rw [bindParameter_of_given hgiven, hsettled]
    rfl

/-- Bound arguments can be given again, all or some of them as variables, and have the same values. -/
theorem bindArguments_again (hnames : (parameters.map Parameter.name).Nodup)
    (hkinds : ∀ parameter ∈ parameters, registry.Follows kinds parameter.type.innermost ∧
      kinds parameter.type.innermost ≠ .dateTime)
    (h : registry.bindArguments field parameters supplied vars = .ok arguments)
    (hdeclared : ∀ entry ∈ supplied', entry.1 ∈ parameters.map Parameter.name)
    (hagain : ∀ parameter ∈ parameters, GivenAgain arguments supplied supplied' vars vars' parameter.name) :
    ∃ again, registry.bindArguments field parameters supplied' vars' = .ok again ∧
      again.values = arguments.values := by
  have hentries := entries_of_bindArguments hnames (fun parameter hmem _ _ =>
    settled_of_bindParameter (hkinds parameter hmem).1 (hkinds parameter hmem).2) h
  refine bindArguments_of_entries hnames hdeclared (hentries.mono hnames fun parameter hmem value hvalue hold => ?_)
  exact yields_again hold.1 hold.2 hvalue (hagain parameter hmem)

/-- **Coercion is idempotent**: a value that comes out of it is left as it is under the same type, however lists
and marks are nested around the scalars of every schema, identifiers and enumerations. So the values of
bound arguments can be fed back: with any arguments given again as variables of these values, and the
others as before, the selection has the same values. -/
theorem coercion_idempotent (registry : RuleRegistry) (kinds : String → StandardRule) :
    (∀ type : TypeRef, registry.Follows kinds type.innermost → kinds type.innermost ≠ .dateTime →
      ∀ argument value result, registry.coerce argument type value = .ok result →
        registry.coerce argument type result = .ok result) ∧
    ∀ field parameters, (parameters.map Parameter.name).Nodup →
      (∀ parameter ∈ parameters, registry.Follows kinds parameter.type.innermost ∧
        kinds parameter.type.innermost ≠ .dateTime) →
      ∀ supplied vars arguments, registry.bindArguments field parameters supplied vars = .ok arguments →
        ∀ supplied' vars', (∀ entry ∈ supplied', entry.1 ∈ parameters.map Parameter.name) →
          (∀ parameter ∈ parameters, GivenAgain arguments supplied supplied' vars vars' parameter.name) →
          ∃ again, registry.bindArguments field parameters supplied' vars' = .ok again ∧
            again.values = arguments.values :=
  ⟨fun _ hfollows hkind _ _ _ h => coerce_of_coerce hfollows hkind h,
    fun _ _ hnames hkinds _ _ _ h _ _ hdeclared hagain => bindArguments_again hnames hkinds h hdeclared hagain⟩

/-- A single value that becomes a list in a list, and a selection with an identifier in capitals and a default that
becomes a double: two of its arguments are given again as variables, the third as before. -/
theorem badge_fed_back :
    let registry : RuleRegistry := ⟨("Token", .uuid) :: builtIn.rules, false⟩
    let ids : TypeRef := .list (.list (.nonNull (.named "ID")))
    let parameters : List Parameter :=
      [⟨"ids", ids, none⟩, ⟨"token", .nonNull (.named "Token"), none⟩, ⟨"size", .named "Float", some (.int 2)⟩]
    let token := Value.string "f81d4fae-7dec-11d0-a765-00a0c91e6bf6"
    let size := Value.number (.float ⟨false, 0x4000000000000000, by decide⟩)
    let arguments : Arguments :=
      ⟨[("ids", .array [.array [.string "7"], .null]), ("token", token), ("size", size)], ["token", "ids"]⟩
    registry.coerce "ids" ids (.int 7) = .ok (.array [.array [.string "7"]]) ∧
      registry.coerce "ids" ids (.array [.array [.string "7"]]) = .ok (.array [.array [.string "7"]]) ∧
      registry.bindArguments "badge" parameters [("ids", .list [.int 7, .null]), ("token", .variable "t")]
        [("t", .string "F81D4FAE7DEC11D0A76500A0C91E6BF6")] = .ok arguments ∧
      ∃ again,
        registry.bindArguments "badge" parameters
          [("size", .variable "s"), ("token", .variable "t"), ("ids", .list [.int 7, .null])]
          [("s", size), ("t", token)] = .ok again ∧ again.values = arguments.values := by
  intro registry ids parameters token size arguments
  have hregister : builtIn.register "Token" StandardRule.uuid.rule = .ok registry := rfl
  have hfollows := fun name => follows_register hregister (follows_builtIn name)
  obtain ⟨hvalues, harguments⟩ := coercion_idempotent registry (Function.update StandardRule.builtIn "Token" .uuid)
  have hsingle : registry.coerce "ids" ids (.int 7) = .ok (.array [.array [.string "7"]]) := rfl
  have hbound : registry.bindArguments "badge" parameters [("ids", .list [.int 7, .null]), ("token", .variable "t")]
      [("t", .string "F81D4FAE7DEC11D0A76500A0C91E6BF6")] = .ok arguments := rfl
  refine ⟨hsingle, hvalues ids (hfollows _) nofun "ids" _ _ hsingle, hbound,
    harguments "badge" parameters (by decide) ?_ _ _ _ hbound _ _ (by decide) ?_⟩
  · exact List.forall_mem_cons.mpr ⟨⟨hfollows _, nofun⟩, List.forall_mem_cons.mpr ⟨⟨hfollows _, nofun⟩,
      List.forall_mem_singleton.mpr ⟨hfollows _, nofun⟩⟩⟩
  · refine List.forall_mem_cons.mpr ⟨Or.inl ⟨rfl, ?_⟩, List.forall_mem_cons.mpr ⟨Or.inr ⟨"t", rfl, rfl⟩,
      List.forall_mem_singleton.mpr (Or.inr ⟨"s", rfl, rfl⟩)⟩⟩
    rintro literal ⟨⟩ var hused
    cases hused

end RuleRegistry

end GraphQuery
