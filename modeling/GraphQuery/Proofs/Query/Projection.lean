import GraphQuery.Proofs.Query.Arrangement
import GraphQuery.Proofs.Query.Row

/-! Values of fields and the rows in them. Compiling a field whose type is no leaf wraps its plan so that
each row of its value becomes a record, and rendering goes through the records of the value in the same
way: where all rows are rendered, so is the value. -/

namespace GraphQuery

namespace Field

variable (field : Field)

/-- The rows in a value of a field: the items of the array of a list field, or else the value, unless it
is null. -/
def rowsOf : Value → List Value
  | .null => []
  | .array items => if field.isList then items else [.array items]
  | value => [value]

/-- A value of a field with another value in place of each of its rows; null stays null. -/
def mapRows (change : Value → Value) : Value → Value
  | .null => .null
  | .array items =>
    if field.isList then .array (items.map fun item => if item.isNull then .null else change item)
    else change (.array items)
  | value => change value

variable {field}

theorem rowsOf_list (h : field.isList = true) (items : List Value) :
    field.rowsOf (.array items) = items := by
  rw [rowsOf, h, if_pos rfl]

theorem mapRows_list (h : field.isList = true) (change : Value → Value) {items : List Value}
    (hnull : .null ∉ items) : field.mapRows change (.array items) = .array (items.map change) := by
  rw [mapRows, h, if_pos rfl]
  refine congrArg Value.array (List.map_congr_left fun item hmem => ?_)
  cases item with
  | null => exact absurd hmem hnull
  | _ => rfl

theorem rowsOf_single (h : field.isList = false) (value : Value) :
    field.rowsOf value = if value.isNull then [] else [value] := by
  cases value <;> simp [rowsOf, Value.isNull, h]

theorem mapRows_single (h : field.isList = false) (change : Value → Value) (value : Value) :
    field.mapRows change value = if value.isNull then .null else change value := by
  cases value <;> simp [mapRows, Value.isNull, h]

theorem resolver_of_isMember (h : field.isMember = true) :
    ∃ name, field.resolver = .member name := by
  rw [isMember] at h
  split at h
  · next name hresolver => exact ⟨name, hresolver⟩
  · cases h

theorem resolver_of_isTypename (h : field.isTypename = true) : field.resolver = .typename := by
  rw [isTypename] at h
  split at h
  · next hresolver => exact hresolver
  · cases h

variable (field)

/-- A list field holds null, or an array without null. -/
def Holds (value : Value) : Prop :=
  field.isList = true → value = .null ∨ ∃ items, value = .array items ∧ .null ∉ items

end Field

theorem Value.mapObjectsAll_eq (change : Members → Traced Members) (items : List Value) :
    mapObjectsAll change items = items.mapM (mapObjects change) := by
  induction items with
  | nil => rfl
  | cons item rest ih => rw [mapObjectsAll, ih, List.mapM_cons]

theorem Value.mapObjects_object (change : Members → Traced Members) {members out : Members}
    (h : (change members).outcome = .ok out) :
    (mapObjects change (.object members)).outcome = .ok (.object out) := by
  rw [mapObjects, Traced.outcome_bind, h]
  rfl

theorem Value.mapObjects_array {change : Members → Traced Members} {members out : Value → Members}
    {items : List Value} (h : ∀ item ∈ items, (change (members item)).outcome = .ok (out item)) :
    (mapObjects change (.array (items.map fun item => .object (members item)))).outcome =
      .ok (.array (items.map fun item => .object (out item))) := by
  have hobjects : items.mapM ((fun item => (mapObjects change item).outcome) ∘
      fun item => .object (members item)) = .ok (items.map fun item => .object (out item)) :=
    Outcome.mapM_ok_of fun item hmem => mapObjects_object change (h item hmem)
  rw [mapObjects, Traced.outcome_bind, mapObjectsAll_eq, Traced.outcome_mapM, List.mapM_map, hobjects]
  rfl

namespace Compiler

variable {compiler : Compiler} {source : Source} {vars : List (String × Value)} {row : Value}
  {plan recordPlan : Plan} {target : SchemaType}

/-- Records are objects. -/
theorem object_of_record {type : SchemaType} {level : List BoundSelection} {depth : Nat} {value : Value}
    (hrecord : (compiler.record type level depth).outcome = .ok recordPlan)
    (hvalue : recordPlan.evalIn source vars row = .ok value) : ∃ members, value = .object members := by
  rw [record, Traced.outcome_bind] at hrecord
  obtain ⟨keys, _, hrecord⟩ := Outcome.bind_ok_iff.mp hrecord
  rw [Traced.outcome_bind] at hrecord
  obtain ⟨bound, _, hpure⟩ := Outcome.bind_ok_iff.mp hrecord
  cases hpure
  rw [recordOf, Plan.evalIn] at hvalue
  obtain ⟨entries, _, rfl⟩ := Outcome.map_ok_iff.mp hvalue
  exact ⟨Members.ofList entries, rfl⟩

theorem compose_leaf {field : Field} {children : List BoundSelection} {depth : Nat}
    (hleaf : (compiler.schema.type field.target).isLeaf = true) :
    compiler.compose field plan children depth = pure (materialize field plan) := by
  rw [compose, if_pos hleaf]

theorem compose_composite {field : Field} {children : List BoundSelection} {depth : Nat}
    (hcomposite : (compiler.schema.type field.target).isLeaf = false)
    (hrecord : (compiler.record (compiler.schema.type field.target) children depth).outcome =
      .ok recordPlan) :
    ∀ plan, (compiler.compose field plan children depth).outcome =
      .ok (compiler.project field plan recordPlan) := by
  intro plan
  rw [compose, hcomposite, if_neg Bool.false_ne_true, Traced.outcome_bind, hrecord]
  rfl

end Compiler

namespace RowContext

variable {context : RowContext} {owner : TypeId} {level : List BoundSelection}

/-- A row is rendered from its record, which is an object. -/
theorem exists_record {plan : Plan} {out : Members}
    (hplan : (context.compiler.record (context.schema.type owner) level context.depth).outcome = .ok plan)
    (hout : context.rendered owner level = .ok out) :
    ∃ members, plan.evalIn context.source context.vars context.row = .ok (.object members) ∧
      (context.renderer.renderRow (context.schema.type owner) level members).outcome = .ok out := by
  obtain ⟨record, hrecord, hrendered⟩ := Outcome.bind_ok_iff.mp hout
  rw [RowContext.record, hplan] at hrecord
  have hvalue := Outcome.mapError_ok_iff.mp hrecord
  obtain ⟨members, rfl⟩ := Compiler.object_of_record hplan hvalue
  exact ⟨members, hvalue, hrendered⟩

theorem exists_recordPlan {out : Members} (hout : context.rendered owner level = .ok out) :
    ∃ plan, (context.compiler.record (context.schema.type owner) level context.depth).outcome =
      .ok plan := by
  obtain ⟨record, hrecord, _⟩ := Outcome.bind_ok_iff.mp hout
  obtain ⟨plan, hplan, _⟩ := Outcome.bind_ok_iff.mp hrecord
  exact ⟨plan, hplan⟩

/-- Another value as a row, its records compiled at some depth. -/
def below (context : RowContext) (depth : Nat) (row : Value) : RowContext :=
  { context with depth := depth, row := row }

section

variable {field : Field} {children : List BoundSelection} {depth : Nat} {read : Value → Members}
  {value : Value} {plan recordPlan : Plan}

/-- Where a field has some value and its rows are rendered, so is the value. -/
theorem project_ok (hplan : plan.evalIn context.source context.vars context.row = .ok value)
    (hsequence : plan.isSequence = false)
    (hrecord : (context.compiler.record (context.schema.type field.target) children depth).outcome =
      .ok recordPlan)
    (hholds : field.Holds value)
    (hrows : ∀ row ∈ field.rowsOf value,
      (context.below depth row).rendered field.target children = .ok (read row)) :
    ∃ raw, (context.compiler.project field plan recordPlan).evalIn context.source context.vars
        context.row = .ok raw ∧ (value = .null → raw = .null) ∧
      (raw.mapObjects (context.renderer.renderRow (context.schema.type field.target)
        children)).outcome = .ok (field.mapRows (fun row => .object (read row)) value) := by
  have hrecords : ∀ row ∈ field.rowsOf value, ∃ members,
      recordPlan.evalIn context.source context.vars row = .ok (.object members) ∧
      (context.renderer.renderRow (context.schema.type field.target) children members).outcome =
        .ok (read row) :=
    fun row hmem => exists_record hrecord (hrows row hmem)
  choose! members hmembers hrendered using hrecords
  rw [Compiler.evalIn_project, hplan, hsequence]
  change ∃ raw, field.arrange false _ value = .ok raw ∧ _
  rw [Field.arrange]
  cases hlist : field.isList with
  | true =>
      rw [if_pos rfl]
      rcases hholds hlist with rfl | ⟨items, rfl, hnull⟩
      · exact ⟨.null, rfl, fun _ => rfl, rfl⟩
      · rw [Field.rowsOf_list hlist] at hmembers hrendered
        refine ⟨.array (items.map fun item => .object (members item)), ?_, fun hnone => (by cases hnone), ?_⟩
        · rw [Value.records, Value.mapSequence_array, Outcome.mapM_ok_of hmembers]
          rfl
        · rw [Value.mapObjects_array hrendered, Field.mapRows_list hlist _ hnull]
  | false =>
      rw [if_neg Bool.false_ne_true, if_neg Bool.false_ne_true]
      rw [Field.rowsOf_single hlist] at hmembers hrendered
      rw [Field.mapRows_single hlist]
      cases hvalue : value.isNull with
      | true => exact ⟨.null, rfl, fun _ => rfl, rfl⟩
      | false =>
          rw [hvalue, if_neg Bool.false_ne_true] at hmembers hrendered
          refine ⟨.object (members value), hmembers value (List.mem_singleton.mpr rfl), ?_,
            Value.mapObjects_object _ (hrendered value (List.mem_singleton.mpr rfl))⟩
          rintro rfl
          cases hvalue

end

end RowContext

end GraphQuery
