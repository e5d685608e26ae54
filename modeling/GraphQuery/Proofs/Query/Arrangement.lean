import GraphQuery.Proofs.Plan.Alike
import GraphQuery.Query.Record

/-! The value of a field whose rows become records. Plans of different tiers wrap lists and single rows
in different ways, but evaluating any of them takes the value of the plan of the field and makes records
of its rows: every item of a list, the first item of a sequence, or the value itself unless it is null.
A nested field is resolved on its row, on null after a cast that fails, or not at all behind a guard. -/

namespace GraphQuery

/-- The first item of an array. -/
def Value.firstItem : Value → Value
  | .array items => items.head?.getD .null
  | _ => .null

/-- The records of the items of an array; null stays null. -/
def Value.records (record : Value → Except StoreError Value) (value : Value) :
    Except StoreError Value :=
  value.mapSequence "project" fun items => items.mapM record

/-- The value of a field with records in place of its rows, from the value of its plan. -/
def Field.arrange (field : Field) (sequence : Bool) (record : Value → Except StoreError Value)
    (value : Value) : Except StoreError Value :=
  if field.isList then value.records record
  else if sequence then
    match field.resolution with
    | .toList => value.records record
    | _ => (value.records record).map Value.firstItem
  else if value.isNull then .ok .null else record value

/-- The rows that a field takes from the value of its plan: those of a list, or the first one of a sequence,
or the value itself. -/
def Field.pick (field : Field) (sequence : Bool) (value : Value) : Value :=
  if field.isList then value
  else if sequence then
    match field.resolution with
    | .toList => value
    | _ => value.firstItem
  else value

/-- The value of a field that has no rows, from the value of its plan. -/
def Field.settle (field : Field) (sequence : Bool) (value : Value) : Except StoreError Value :=
  if sequence then
    match field.resolution, field.isList with
    | .toList, _ => value.mapSequence "to_list" pure
    | .unmodified, true => value.mapSequence "to_list" pure
    | _, _ => do
      let items ← value.sequence "first"
      pure ((items.bind List.head?).getD .null)
  else .ok value

namespace Value

variable {operation : String} {step : List Value → Except StoreError (List Value)} {value result : Value}

theorem mapSequence_null : mapSequence operation step .null = .ok .null := rfl

theorem mapSequence_array (items : List Value) :
    mapSequence operation step (.array items) = (step items).map .array := rfl

/-- Applying a step to a sequence yields null or an array. -/
theorem mapSequence_ok (h : value.mapSequence operation step = .ok result) :
    value = .null ∧ result = .null ∨
      ∃ items results, value = .array items ∧ step items = .ok results ∧ result = .array results := by
  cases value with
  | null =>
      rw [mapSequence_null] at h
      cases h
      exact Or.inl ⟨rfl, rfl⟩
  | array items =>
      rw [mapSequence_array, Outcome.map_ok_iff] at h
      obtain ⟨results, hresults, rfl⟩ := h
      exact Or.inr ⟨items, results, rfl, hresults, rfl⟩
  | bool _ => cases h
  | number _ => cases h
  | string _ => cases h
  | object _ => cases h

theorem mapSequence_toList (value : Value) :
    (value.mapSequence operation step >>= fun result => result.mapSequence "to_list" pure) =
      value.mapSequence operation step := by
  cases h : value.mapSequence operation step with
  | error error => rfl
  | ok result => rcases mapSequence_ok h with ⟨_, rfl⟩ | ⟨_, _, _, _, rfl⟩ <;> rfl

theorem mapSequence_first (value : Value) :
    (do
      let result ← value.mapSequence operation step
      let items ← result.sequence "first"
      pure ((items.bind List.head?).getD .null)) =
      (value.mapSequence operation step).map firstItem := by
  cases h : value.mapSequence operation step with
  | error error => rfl
  | ok result => rcases mapSequence_ok h with ⟨_, rfl⟩ | ⟨_, _, _, _, rfl⟩ <;> rfl

/-- A guard against null changes nothing, since a step on null is null. -/
theorem mapSequence_guard (value : Value) :
    (if value.isNull then .ok .null else value.mapSequence operation step) =
      value.mapSequence operation step := by
  cases value <;> rfl

end Value

namespace Compiler

variable (compiler : Compiler) (source : Source) (vars : List (String × Value)) (row : Value)

/-- A sequence becomes the value of a field without any cast. -/
theorem any_materialize (field : Field) (plan : Plan) :
    (materialize field plan).any Plan.isCast = plan.any Plan.isCast := by
  unfold materialize
  split
  · rfl
  · split
    · rfl
    · rfl
    · rfl
    · split <;> rfl

theorem evalIn_materialize (field : Field) (plan : Plan) :
    (materialize field plan).evalIn source vars row =
      plan.evalIn source vars row >>= field.settle plan.isSequence := by
  unfold materialize Field.settle
  cases plan.isSequence with
  | false => exact (bind_pure (plan.evalIn source vars row)).symm
  | true =>
      cases field.resolution <;> cases field.isList <;>
        simp only [Bool.not_true, Bool.false_eq_true, if_false, if_true, Plan.evalIn]

theorem evalIn_listOf (plan recordPlan : Plan) (target : SchemaType) :
    (compiler.listOf plan target recordPlan).evalIn source vars row = (do
      let value ← plan.evalIn source vars row
      value.records fun item => recordPlan.evalIn source vars item) := by
  rw [listOf]
  split
  · simp only [Plan.evalIn]
    cases plan.evalIn source vars row with
    | error error => rfl
    | ok value =>
        refine Eq.trans ?_ (Value.mapSequence_guard value)
        exact congrArg (fun results => if value.isNull then .ok .null else results)
          (Value.mapSequence_toList value)
  · simp only [Plan.evalIn]
    cases plan.evalIn source vars row with
    | error error => rfl
    | ok value => exact Value.mapSequence_toList value

/-- In every tier the plan of a field arranges the records of the rows in its value. -/
theorem evalIn_project (field : Field) (plan recordPlan : Plan) :
    (compiler.project field plan recordPlan).evalIn source vars row =
      plan.evalIn source vars row >>=
        field.arrange plan.isSequence fun item => recordPlan.evalIn source vars item := by
  unfold project Field.arrange
  cases hlist : field.isList with
  | true => exact evalIn_listOf compiler source vars row plan recordPlan _
  | false =>
      cases hsequence : plan.isSequence with
      | false =>
          simp only [Bool.false_eq_true, if_false, Plan.evalIn]
          rfl
      | true =>
          simp only [Bool.false_eq_true, if_false, if_true, materialize, Plan.isSequence, hlist,
            Bool.not_true]
          cases field.resolution <;> simp only [Plan.evalIn, bind_assoc]
          · exact congrArg (_ >>= ·) (funext Value.mapSequence_first)
          · exact congrArg (_ >>= ·) (funext Value.mapSequence_first)
          · exact congrArg (_ >>= ·) (funext Value.mapSequence_first)
          · exact congrArg (_ >>= ·) (funext Value.mapSequence_toList)

/-! ### Nested fields -/

/-- Does a row not have a field? Where not every row of its type has the field, those do that carry a
shape of the type that declares it. -/
def lacks (owner : SchemaType) (field : Field) : Bool :=
  compiler.isPartial owner field && !row.hasShape (compiler.schema.type field.declaring).shapes

/-- The value on which a nested field is resolved. -/
def parentValue (owner : SchemaType) (field : Field) : Value :=
  if compiler.tier.casts && compiler.lacks row owner field then .null else row

/-- What the plan of a field finds around it when it is resolved on some parent. -/
def around (field : Field) (depth : Nat) (parent : Value) : List (String × Value) :=
  if seesRow field then vars else (parentName depth, parent) :: vars

variable (owner : SchemaType) (field : Field)

theorem evalIn_rowOf : (compiler.rowOf owner field).evalIn source vars row =
    .ok (compiler.parentValue row owner field) := by
  unfold rowOf parentValue lacks
  cases compiler.isPartial owner field with
  | false =>
      rw [Bool.false_and, Bool.false_and, Bool.and_false]
      rfl
  | true =>
      cases compiler.tier.casts with
      | false => rfl
      | true =>
          simp only [Bool.and_self, if_true, Bool.true_and, Plan.evalIn]
          change Except.ok (if _ then _ else _) = _
          cases row.hasShape (compiler.schema.type field.declaring).shapes <;> rfl

theorem evalIn_bindParent (depth : Nat) (plan : Plan) :
    (bindParent field (compiler.rowOf owner field) depth plan).evalIn source vars row =
      plan.evalIn source (around vars field depth (compiler.parentValue row owner field)) row := by
  unfold bindParent around
  split
  · rfl
  · rw [Plan.evalIn, evalIn_rowOf]
    rfl

/-- Behind a guard, a field is null on rows that do not have it. -/
theorem evalIn_guardPartial_eq (plan : Plan) :
    (compiler.guardPartial owner field plan).evalIn source vars row =
      if compiler.tier.casts && compiler.tier.guardsNulls && compiler.lacks row owner field then .ok .null
      else plan.evalIn source vars row := by
  unfold guardPartial lacks
  cases compiler.isPartial owner field with
  | false =>
      rw [Bool.false_and, Bool.false_and, Bool.false_and, Bool.and_false]
      rfl
  | true =>
      rw [Bool.true_and, Bool.true_and]
      cases compiler.tier.casts && compiler.tier.guardsNulls with
      | false => rfl
      | true =>
          simp only [if_true, Bool.true_and, Plan.evalIn]
          change (if (Value.bool (row.hasShape (compiler.schema.type field.declaring).shapes)).isTrue then _
            else _) = _
          cases row.hasShape (compiler.schema.type field.declaring).shapes <;> rfl

end Compiler

namespace Field

theorem settle_null (field : Field) (sequence : Bool) : field.settle sequence .null = .ok .null := by
  unfold settle
  cases sequence with
  | false => rfl
  | true => cases field.resolution <;> cases field.isList <;> rfl

theorem arrange_null (field : Field) (sequence : Bool) (record : Value → Except StoreError Value) :
    field.arrange sequence record .null = .ok .null := by
  unfold arrange
  cases field.isList with
  | true => rfl
  | false =>
      cases sequence with
      | false => rfl
      | true => cases field.resolution <;> rfl

variable {field : Field} {sequence : Bool} {first second : Value → Except StoreError Value}
  {relation : Value → Value → Prop}

section

variable (hrecord : ∀ row one other, first row = .ok one → second row = .ok other → relation one other)

include hrecord

/-- Records of the rows of one value are null, or arrays of related records. -/
theorem records_related {value one other : Value} (hone : value.records first = .ok one)
    (hother : value.records second = .ok other) :
    one = .null ∧ other = .null ∨ ∃ ones others, one = .array ones ∧ other = .array others ∧
      List.Forall₂ relation ones others := by
  rcases Value.mapSequence_ok hone with ⟨rfl, rfl⟩ | ⟨items, ones, rfl, hones, rfl⟩
  · rw [Value.records, Value.mapSequence_null] at hother
    cases hother
    exact Or.inl ⟨rfl, rfl⟩
  · rw [Value.records, Value.mapSequence_array, Outcome.map_ok_iff] at hother
    obtain ⟨others, hothers, rfl⟩ := hother
    exact Or.inr ⟨ones, others, rfl, rfl, Outcome.results_related hrecord hones hothers⟩

variable (hnull : relation .null .null)
  (harray : ∀ ones others, List.Forall₂ relation ones others → relation (.array ones) (.array others))

include hnull harray

/-- Values arranged from the same value are related like null, like related arrays, or like the records
of one row. -/
theorem arrange_related {value one other : Value} (hone : field.arrange sequence first value = .ok one)
    (hother : field.arrange sequence second value = .ok other) : relation one other := by
  have hrecords {one other : Value} (hone : value.records first = .ok one)
      (hother : value.records second = .ok other) : relation one other := by
    rcases records_related hrecord hone hother with ⟨rfl, rfl⟩ | ⟨ones, others, rfl, rfl, hall⟩
    · exact hnull
    · exact harray ones others hall
  have hfirst {one other : Value} (hone : (value.records first).map Value.firstItem = .ok one)
      (hother : (value.records second).map Value.firstItem = .ok other) : relation one other := by
    obtain ⟨ones, hones, rfl⟩ := Outcome.map_ok_iff.mp hone
    obtain ⟨others, hothers, rfl⟩ := Outcome.map_ok_iff.mp hother
    rcases records_related hrecord hones hothers with ⟨rfl, rfl⟩ | ⟨ones, others, rfl, rfl, hall⟩
    · exact hnull
    · cases hall with
      | nil => exact hnull
      | cons hhead _ => exact hhead
  unfold arrange at hone hother
  cases hlist : field.isList with
  | true =>
      rw [hlist] at hone hother
      exact hrecords hone hother
  | false =>
      rw [hlist] at hone hother
      cases sequence with
      | true =>
          cases hresolution : field.resolution with
          | toList =>
              rw [hresolution] at hone hother
              exact hrecords hone hother
          | _ =>
              rw [hresolution] at hone hother
              exact hfirst hone hother
      | false =>
          cases hvalue : value.isNull with
          | true =>
              rw [hvalue] at hone hother
              cases hone
              cases hother
              exact hnull
          | false =>
              rw [hvalue] at hone hother
              exact hrecord value one other hone hother

end

theorem records_agree (hrecord : ∀ row, Outcome.Agree relation (first row) (second row)) (value : Value) :
    Outcome.Agree (fun one other => one = .null ∧ other = .null ∨ ∃ ones others, one = .array ones ∧
      other = .array others ∧ List.Forall₂ relation ones others) (value.records first)
        (value.records second) := by
  unfold Value.records Value.mapSequence
  refine (Outcome.Agree.refl (value.sequence "project")).bind ?_
  rintro items? _ rfl
  cases items? with
  | none => exact .ok (Or.inl ⟨rfl, rfl⟩)
  | some items =>
      exact (Outcome.Agree.mapM hrecord items).map fun ones others hall =>
        Or.inr ⟨ones, others, rfl, rfl, hall⟩

/-- Where records of one row fail alike or are related, so it is with what is arranged of them. -/
theorem arrange_agree (hrecord : ∀ row, Outcome.Agree relation (first row) (second row))
    (hnull : relation .null .null)
    (harray : ∀ ones others, List.Forall₂ relation ones others → relation (.array ones) (.array others))
    (value : Value) :
    Outcome.Agree relation (field.arrange sequence first value) (field.arrange sequence second value) := by
  have hrecords : Outcome.Agree relation (value.records first) (value.records second) := by
    refine (records_agree hrecord value).mono ?_
    rintro _ _ (⟨rfl, rfl⟩ | ⟨ones, others, rfl, rfl, hall⟩)
    · exact hnull
    · exact harray ones others hall
  have hfirst : Outcome.Agree relation ((value.records first).map Value.firstItem)
      ((value.records second).map Value.firstItem) := by
    refine (records_agree hrecord value).map ?_
    rintro _ _ (⟨rfl, rfl⟩ | ⟨_, _, rfl, rfl, hall⟩)
    · exact hnull
    · cases hall with
      | nil => exact hnull
      | cons hhead _ => exact hhead
  unfold arrange
  split
  · exact hrecords
  · split
    · cases field.resolution with
      | toList => exact hrecords
      | _ => exact hfirst
    · split
      · exact .ok hnull
      · exact hrecord value

end Field

namespace Compiler

/-! ### Plans that are alike -/

variable {compiler : Compiler} {relation : Value → Value → Prop} {field : Field} {plan one other : Plan}

theorem bindParent_alike {base : Plan} {depth : Nat} (h : one.Alike relation other) :
    (bindParent field base depth one).Alike relation (bindParent field base depth other) := by
  unfold bindParent
  split
  · exact h
  · refine ⟨?_, fun source vars row => ?_⟩
    · rw [Plan.any, Plan.any, h.casts]
      rfl
    · rw [Plan.evalIn, Plan.evalIn]
      refine (Outcome.Agree.refl _).bind ?_
      rintro value _ rfl
      exact h.values source _ row

variable (hnull : relation .null .null)

include hnull

theorem guardPartial_alike {owner : SchemaType} (h : one.Alike relation other) :
    (compiler.guardPartial owner field one).Alike relation (compiler.guardPartial owner field other) := by
  refine ⟨?_, fun source vars row => ?_⟩
  · unfold guardPartial
    dsimp only
    split
    · rw [Plan.any, Plan.any, h.casts]
      rfl
    · exact h.casts
  · rw [evalIn_guardPartial_eq, evalIn_guardPartial_eq]
    split
    · exact .ok hnull
    · exact h.values source vars row

/-- A field is alike with records that are, for the rows of one plan. -/
theorem project_alike (harray : ∀ values others, List.Forall₂ relation values others →
      relation (.array values) (.array others)) (h : one.Alike relation other) :
    (compiler.project field plan one).Alike relation (compiler.project field plan other) := by
  refine ⟨?_, fun source vars row => ?_⟩
  · unfold project listOf
    dsimp only
    split
    · split
      · simp only [Plan.any, h.casts]
        rfl
      · simp only [Plan.any, h.casts]
        rfl
    · split
      · rw [any_materialize, any_materialize, Plan.any, Plan.any, h.casts]
        rfl
      · simp only [Plan.any, h.casts]
        rfl
  · rw [evalIn_project, evalIn_project]
    refine (Outcome.Agree.refl _).bind ?_
    rintro value _ rfl
    exact Field.arrange_agree (fun item => h.values source vars item) hnull harray value

end Compiler

end GraphQuery
