import GraphQuery.Proofs.Input.Arguments
import Mathlib.Logic.Function.Basic

/-! Bound arguments conform to their declared types. A rule yields values of its range only, coercion brings
the rules to all places of a type, and what stands for an argument that is left out is a value of its
type as well. -/

namespace GraphQuery

/-- The rules of the scalars that every schema has, those of identifiers and timestamps, and those of
enumerations. -/
inductive StandardRule where
  | int
  | float
  | string
  | boolean
  | id
  | uuid
  | dateTime
  | enumeration (values : List String)

namespace StandardRule

/-- The kinds of the scalars that every schema has; other names count as strings. -/
def builtIn : String → StandardRule
  | "Int" => .int
  | "Float" => .float
  | "Boolean" => .boolean
  | "ID" => .id
  | _ => .string

def rule : StandardRule → Rule
  | int => .int
  | float => .float
  | string => .string
  | boolean => .boolean
  | id => .id
  | uuid => .uuid
  | dateTime => .dateTime
  | enumeration values => .enumeration values

/-- The values other than null that a named type has. -/
def Range : StandardRule → Value → Prop
  | int, value => ∃ i : Int, -0x80000000 ≤ i ∧ i < 0x80000000 ∧ value = .int i
  | float, value => ∃ x : Binary64, value = .number (.float x)
  | boolean, value => ∃ b : Bool, value = .bool b
  | enumeration values, value => ∃ s ∈ values, value = .string s
  | string, value | id, value | uuid, value | dateTime, value => ∃ s : String, value = .string s

theorem range_ne_null {kind : StandardRule} {value : Value} (h : kind.Range value) : value ≠ .null := by
  rintro rfl
  cases kind with
  | int =>
      obtain ⟨_, _, _, h⟩ := h
      cases h
  | enumeration values =>
      obtain ⟨_, _, h⟩ := h
      cases h
  | _ =>
      obtain ⟨_, h⟩ := h
      cases h

theorem range_of_apply {kind : StandardRule} {value result : Value} (h : kind.rule.apply value = .ok result) :
    kind.Range result := by
  cases kind with
  | int =>
      simp only [rule, Rule.int, Rule.custom] at h
      split at h
      · split at h
        · next i _ hfits =>
            cases h
            exact ⟨i, hfits.1, hfits.2, rfl⟩
        · cases h
      · cases h
  | float =>
      simp only [rule, Rule.float, Rule.custom] at h
      split at h
      · cases h
        exact ⟨_, rfl⟩
      · cases h
  | string | id =>
      simp only [rule, Rule.string, Rule.id, Rule.custom] at h
      split at h <;> cases h <;> exact ⟨_, rfl⟩
  | boolean =>
      simp only [rule, Rule.boolean, Rule.custom] at h
      split at h <;> cases h
      exact ⟨_, rfl⟩
  | uuid | dateTime =>
      simp only [rule, Rule.uuid, Rule.dateTime, Rule.custom] at h
      split at h
      · split at h <;> cases h
        exact ⟨_, rfl⟩
      · cases h
  | enumeration values =>
      simp only [rule, Rule.enumeration] at h
      split at h
      · split at h
        · next s hlisted =>
            cases h
            exact ⟨s, List.contains_iff_mem.mp hlisted, rfl⟩
        · cases h
      · cases h

/-- What stands for an argument that is left out is null, or a value like any other. -/
theorem range_of_zero (kind : StandardRule) : kind.rule.zero = .null ∨ kind.Range kind.rule.zero := by
  cases kind with
  | uuid | dateTime | enumeration _ => exact Or.inl rfl
  | int => exact Or.inr ⟨0, by decide, by decide, rfl⟩
  | _ => exact Or.inr ⟨_, rfl⟩

end StandardRule

namespace TypeRef

/-- The values of a type, by the values that named types have besides null. -/
def Accepts (range : String → Value → Prop) : TypeRef → Value → Prop
  | .named name, value => value = .null ∨ range name value
  | .list item, value => value = .null ∨ ∃ values, value = .array values ∧ ∀ v ∈ values, item.Accepts range v
  | .nonNull inner, value => value ≠ .null ∧ inner.Accepts range value

end TypeRef

namespace RuleRegistry

variable {registry : RuleRegistry} {kinds : String → StandardRule} {argument : String} {type : TypeRef}

/-- The rule of a name is the one of its kind, if the name has a rule. -/
def Follows (registry : RuleRegistry) (kinds : String → StandardRule) (name : String) : Prop :=
  ∀ rule, registry.find? name = some rule → rule = (kinds name).rule

theorem follows_builtIn (name : String) : builtIn.Follows StandardRule.builtIn name := by
  intro rule h
  simp only [find?, builtIn, Keyed.lookup_entry, List.lookup_nil] at h
  split_ifs at h with hint hfloat hstring hboolean hid <;> cases h <;> subst name <;> rfl

theorem follows_register {kind : StandardRule} {grown : RuleRegistry} {name : String}
    (h : registry.register name kind.rule = .ok grown) {other : String} (hother : registry.Follows kinds other) :
    grown.Follows (Function.update kinds name kind) other := by
  unfold register at h
  split at h
  · cases h
  · cases h
    intro rule hrule
    rw [find?, Keyed.lookup_entry] at hrule
    by_cases hname : other = name
    · rw [if_pos hname] at hrule
      cases hrule
      rw [hname, Function.update_self]
    · rw [if_neg hname] at hrule
      rw [Function.update_of_ne hname]
      exact hother rule hrule

/-! ### Values -/

theorem rule_ok {name : String} {rule : Rule} (h : registry.rule argument name = .ok rule) :
    registry.find? name = some rule := by
  unfold RuleRegistry.rule at h
  split at h
  · next hfound =>
      cases h
      exact hfound
  · cases h

theorem coerce_named_ok {name : String} {value result : Value}
    (h : registry.coerce argument (.named name) value = .ok result) :
    value = .null ∧ result = .null ∨ ∃ rule, registry.find? name = some rule ∧ rule.apply value = .ok result := by
  unfold coerce at h
  split at h
  · cases h
    cases value with
    | null => exact Or.inl ⟨rfl, rfl⟩
    | _ => contradiction
  · obtain ⟨rule, hrule, h⟩ := Outcome.bind_ok_iff.mp h
    split at h
    · next accepted haccepted =>
        cases h
        exact Or.inr ⟨rule, rule_ok hrule, haccepted⟩
    · cases h

/-- A value that comes out of coercion is one of the type, and null only where null went in. -/
theorem accepts_of_coerce (hfollows : registry.Follows kinds type.innermost) {value result : Value}
    (h : registry.coerce argument type value = .ok result) :
    type.Accepts (fun name => (kinds name).Range) result ∧ (result = .null → value = .null) := by
  induction type generalizing value result with
  | named name =>
      rcases coerce_named_ok h with ⟨rfl, rfl⟩ | ⟨rule, hrule, happly⟩
      · exact ⟨Or.inl rfl, id⟩
      · rw [hfollows _ hrule] at happly
        have hrange := StandardRule.range_of_apply happly
        exact ⟨Or.inr hrange, fun hnull => absurd hnull (StandardRule.range_ne_null hrange)⟩
  | list item ih =>
      unfold coerce at h
      split at h
      · cases h
        exact ⟨Or.inl rfl, fun _ => rfl⟩
      · obtain ⟨results, hresults, rfl⟩ := Outcome.map_ok_iff.mp h
        refine ⟨Or.inr ⟨results, rfl, fun v hmem => ?_⟩, nofun⟩
        obtain ⟨_, _, hv⟩ := (Outcome.mem_of_mapM hresults).mp hmem
        exact (ih hfollows hv).1
      · obtain ⟨v, hv, rfl⟩ := Outcome.map_ok_iff.mp h
        refine ⟨Or.inr ⟨[v], rfl, fun other hmem => ?_⟩, nofun⟩
        rw [List.mem_singleton.mp hmem]
        exact (ih hfollows hv).1
  | nonNull inner ih =>
      unfold coerce at h
      split at h
      · cases h
      · next hvalue =>
          obtain ⟨haccepts, hnull⟩ := ih hfollows h
          have hresult : result ≠ .null := fun h => hvalue (by rw [hnull h]; rfl)
          exact ⟨⟨hresult, haccepts⟩, fun h => absurd h hresult⟩

/-- What stands for an argument that is left out is a value of a type that has null. -/
theorem accepts_of_zeroValue (hfollows : registry.Follows kinds type.innermost) (hnull : type.isNonNull = false)
    {value : Value} (h : registry.zeroValue argument type = .ok value) :
    type.Accepts (fun name => (kinds name).Range) value := by
  cases type with
  | named name =>
      obtain ⟨rule, hrule, rfl⟩ := Outcome.map_ok_iff.mp h
      rw [hfollows _ (rule_ok hrule)]
      exact StandardRule.range_of_zero _
  | list item =>
      cases h
      exact Or.inr ⟨[], rfl, fun _ hmem => absurd hmem List.not_mem_nil⟩
  | nonNull inner => cases hnull

theorem accepts_of_omitted {parameter : Parameter} (hfollows : registry.Follows kinds parameter.type.innermost)
    {literal? : Option Literal} {value : Value} (h : registry.omitted parameter literal? = .ok value) :
    parameter.type.Accepts (fun name => (kinds name).Range) value := by
  unfold omitted at h
  split at h
  · exact (accepts_of_coerce hfollows h).1
  · split at h
    · split at h <;> cases h
    · next hnull => exact accepts_of_zeroValue hfollows (eq_false_of_ne_true hnull) h

variable {field : String} {parameters : List Parameter} {supplied : List (String × Literal)} {vars : Members}

/-- A bound argument adds a value of its type under its name. -/
theorem accepts_of_bindParameter {parameter : Parameter} (hfollows : registry.Follows kinds parameter.type.innermost)
    {bound next : Arguments} (h : registry.bindParameter supplied vars bound parameter = .ok next) :
    ∃ value, parameter.type.Accepts (fun name => (kinds name).Range) value ∧
      next.values = Keyed.put parameter.name value bound.values := by
  obtain ⟨value, _, ⟨_, hvalue⟩ | homitted, hvalues⟩ := yields_of_bindParameter h
  · exact ⟨value, (accepts_of_coerce hfollows hvalue).1, hvalues⟩
  · exact ⟨value, accepts_of_omitted hfollows homitted, hvalues⟩

/-! ### Arguments -/

/-- An entry binds a parameter to a value of its type. -/
def Binds (kinds : String → StandardRule) (parameter : Parameter) (entry : String × Value) : Prop :=
  entry.1 = parameter.name ∧ parameter.type.Accepts (fun name => (kinds name).Range) entry.2

/-- The pass over the declared arguments leaves one entry for each, in their order. -/
theorem binds_of_bindArguments (hnames : (parameters.map Parameter.name).Nodup)
    (hfollows : ∀ parameter ∈ parameters, registry.Follows kinds parameter.type.innermost) {arguments : Arguments}
    (h : registry.bindArguments field parameters supplied vars = .ok arguments) :
    List.Forall₂ (Binds kinds) parameters arguments.values :=
  entries_of_bindArguments hnames (fun parameter hmem _ _ => accepts_of_bindParameter (hfollows parameter hmem)) h

/-- An argument that needs a value and has none lets the binding fail. -/
theorem error_of_unsupplied {parameter : Parameter} (hmem : parameter ∈ parameters)
    (hnonNull : parameter.type.isNonNull = true) (hdefault : parameter.default? = none)
    (hnone : Unsupplied supplied vars parameter.name) :
    ∃ fault, registry.bindArguments field parameters supplied vars = .error ⟨field, fault⟩ := by
  refine error_of_not_ok fun arguments h => ?_
  obtain ⟨bound, next, hnext⟩ := Outcome.ok_of_foldlM (bindArguments_ok h) parameter hmem
  have hgiven := given_of_unsupplied hnone
  rcases bindParameter_ok hnext with ⟨raw, _, hraw, _⟩ | ⟨value, _, homitted, _⟩
  · rw [hgiven] at hraw
    cases hraw
  · simp only [omitted, hdefault, hnonNull, if_true] at homitted
    split at homitted <;> cases homitted

/-- A name that is not declared lets the binding fail. -/
theorem error_of_undeclared (h : ∃ entry ∈ supplied, entry.1 ∉ parameters.map Parameter.name) :
    ∃ entry ∈ supplied, entry.1 ∉ parameters.map Parameter.name ∧
      registry.bindArguments field parameters supplied vars = .error ⟨field, .unknown entry.1⟩ := by
  obtain ⟨entry, hmem, hnew⟩ := h
  obtain ⟨name, hname⟩ := exists_undeclared (List.mem_map_of_mem hmem) hnew
  obtain ⟨hsupplied, hother⟩ := undeclared?_some hname
  obtain ⟨other, hmem, rfl⟩ := List.mem_map.mp hsupplied
  refine ⟨other, hmem, hother, ?_⟩
  rw [bindArguments_eq, hname]

/-- **Bound arguments conform to their declarations**: they are the declared ones in their order, each with a
value of its type. A supplied argument that is not declared, and an argument that needs a value and
has none, are faults of the field. -/
theorem bound_arguments_conform (registry : RuleRegistry) (kinds : String → StandardRule)
    {specs : List ParameterSpec} {parameters : List Parameter} (hshape : Parameter.resolveAll specs = .ok parameters)
    (hkinds : ∀ parameter ∈ parameters, registry.Follows kinds parameter.type.innermost)
    (field : String) (supplied : List (String × Literal)) (vars : Members) :
    (∀ arguments, registry.bindArguments field parameters supplied vars = .ok arguments →
      List.Forall₂ (Binds kinds) parameters arguments.values) ∧
    ((∃ entry ∈ supplied, entry.1 ∉ parameters.map Parameter.name) →
      ∃ entry ∈ supplied, entry.1 ∉ parameters.map Parameter.name ∧
        registry.bindArguments field parameters supplied vars = .error ⟨field, .unknown entry.1⟩) ∧
    (∀ parameter ∈ parameters, parameter.type.isNonNull = true → parameter.default? = none →
      Unsupplied supplied vars parameter.name →
        ∃ fault, registry.bindArguments field parameters supplied vars = .error ⟨field, fault⟩) :=
  ⟨fun _ h => binds_of_bindArguments (Parameter.names_nodup hshape) hkinds h, error_of_undeclared,
    fun _ hmem hnonNull hdefault hnone => error_of_unsupplied hmem hnonNull hdefault hnone⟩

/-- An enumeration beside the scalars: a single value stands for a list of it, a whole number for a string, and
zero for a number that is left out; without the identifier nothing is bound. -/
theorem shifts_conform :
    ∃ registry parameters arguments,
      builtIn.register "Day" (.enumeration ["SAT", "SUN"]) = .ok registry ∧
      Parameter.resolveAll [⟨"id", "ID!", none⟩, ⟨"on", "[Day!]", none⟩, ⟨"n", "Int", none⟩] =
        .ok parameters ∧
      registry.bindArguments "shifts" parameters [("on", .variable "d"), ("id", .int 7)] [("d", .string "SAT")] =
        .ok arguments ∧
      List.Forall₂ (Binds (Function.update StandardRule.builtIn "Day" (.enumeration ["SAT", "SUN"])))
        parameters arguments.values ∧
      ∃ fault, registry.bindArguments "shifts" parameters [("id", .variable "i")] [] = .error ⟨"shifts", fault⟩ := by
  have hshape : Parameter.resolveAll [⟨"id", "ID!", none⟩, ⟨"on", "[Day!]", none⟩, ⟨"n", "Int", none⟩] =
      .ok [⟨"id", .nonNull (.named "ID"), none⟩, ⟨"on", .list (.nonNull (.named "Day")), none⟩,
        ⟨"n", .named "Int", none⟩] := by
    have hid : TypeRef.read? "ID!".toList = some (.nonNull (.named "ID")) := by decide +kernel
    have hon : TypeRef.read? "[Day!]".toList = some (.list (.nonNull (.named "Day"))) := by decide +kernel
    have hn : TypeRef.read? "Int".toList = some (.named "Int") := by decide +kernel
    simp only [Parameter.resolveAll, List.foldlM_cons, Parameter.resolve, TypeRef.parse, hid, hon, hn]
    rfl
  have hregister : builtIn.register "Day" (StandardRule.enumeration ["SAT", "SUN"]).rule = .ok _ := rfl
  have hconform := bound_arguments_conform _ _ hshape
    (fun _ _ => follows_register hregister (follows_builtIn _)) "shifts"
  refine ⟨_, _, _, hregister, hshape, rfl,
    (hconform [("on", .variable "d"), ("id", .int 7)] [("d", .string "SAT")]).1 _ rfl, ?_⟩
  exact (hconform [("id", .variable "i")] []).2.2 _ List.mem_cons_self rfl rfl (Or.inr ⟨"i", rfl, rfl⟩)

end RuleRegistry

end GraphQuery
