import GraphQuery.Proofs.Query.Binding
import GraphQuery.Proofs.Query.Projection

/-! Lists of rows. What is shown of a list is shown row by row: there is an object for each row, which does
not depend on the other rows. -/

namespace GraphQuery

/-- A row is shown as an object: its record is evaluated and rendered. -/
theorem RowContext.rendered_object_iff {context : RowContext} {owner : TypeId} {level : List BoundSelection}
    {record : Plan}
    (hrecord : (context.compiler.record (context.schema.type owner) level context.depth).outcome = .ok record)
    {shown : Value} :
    (context.rendered owner level).map Value.object = .ok shown ↔
      ∃ value, record.evalIn context.source context.vars context.row = .ok value ∧
        (value.mapObjects (context.renderer.renderRow (context.schema.type owner) level)).outcome = .ok shown := by
  rw [Outcome.map_ok_iff]
  constructor
  · rintro ⟨out, hout, rfl⟩
    obtain ⟨members, hvalue, hrendered⟩ := exists_record hrecord hout
    exact ⟨.object members, hvalue, Value.mapObjects_object _ hrendered⟩
  · rintro ⟨value, hvalue, hshown⟩
    obtain ⟨members, rfl⟩ := Compiler.object_of_record hrecord hvalue
    obtain ⟨out, hout, hpure⟩ := Traced.bind_ok_iff.mp hshown
    cases hpure
    refine ⟨out, Outcome.bind_ok_iff.mpr ⟨.object members, ?_, hout⟩, rfl⟩
    rw [RowContext.record, hrecord]
    exact Outcome.mapError_ok_iff.mpr hvalue

theorem Renderer.renderField_array {renderer : Renderer} {field : Field}
    (hcomposite : (renderer.schema.type field.target).isLeaf = false) (children : List BoundSelection)
    (values : List Value) :
    (renderer.renderField field children (.array values)).outcome =
      (values.mapM fun value => (Value.mapObjects
        (renderer.renderRow (renderer.schema.type field.target) children) value).outcome).map Value.array := by
  rw [renderField, hcomposite, if_neg Bool.false_ne_true, Value.mapObjects, Traced.outcome_bind, Value.mapObjectsAll_eq,
    Traced.outcome_mapM]
  rfl

namespace Compiler

/-- What a field shows: its plan is compiled with its selections and evaluated, and the records that this
yields are rendered. -/
def display (compiler : Compiler) (source : Source) (field : Field) (plan : Plan)
    (children : List BoundSelection) (depth : Nat) : Except EngineError Value := do
  let composed ← (compiler.compose field plan children depth).outcome
  let raw ← (composed.run source).mapError .backend
  (Renderer.renderField ⟨compiler.schema, compiler.data?⟩ field children raw).outcome

variable {compiler : Compiler} {source : Source} {field : Field} {plan : Plan} {rows : List Value}
  {children : List BoundSelection} {depth : Nat}

theorem run_project_list (hlist : field.isList = true) (hrows : plan.run source = .ok (.array rows))
    (record : Plan) :
    (compiler.project field plan record).run source =
      (rows.mapM fun row => record.evalIn source [] row).map Value.array := by
  rw [Plan.run, Plan.eval, evalIn_project]
  change plan.run source >>= _ = _
  rw [hrows]
  change field.arrange plan.isSequence _ (.array rows) = _
  rw [Field.arrange, hlist, if_pos rfl, Value.records, Value.mapSequence_array]

/-- A list is shown row by row. -/
theorem display_list_iff (hlist : field.isList = true)
    (hcomposite : (compiler.schema.type field.target).isLeaf = false)
    (hrows : plan.run source = .ok (.array rows)) {shown : Value} :
    compiler.display source field plan children depth = .ok shown ↔
      (∃ record, (compiler.record (compiler.schema.type field.target) children depth).outcome = .ok record) ∧
        ∃ objects, rows.mapM (fun row =>
          ((⟨compiler, depth, source, [], row⟩ : RowContext).rendered field.target children).map Value.object) =
            .ok objects ∧ shown = .array objects := by
  cases hrecord : (compiler.record (compiler.schema.type field.target) children depth).outcome with
  | error error =>
      have herror : compiler.display source field plan children depth = .error error := by
        rw [display, compose, hcomposite, if_neg Bool.false_ne_true, Traced.outcome_bind, hrecord]
        rfl
      rw [herror]
      simp
  | ok record =>
      have hrow (row object : Value) :
          ((⟨compiler, depth, source, [], row⟩ : RowContext).rendered field.target children).map Value.object =
            .ok object ↔ ∃ value, record.evalIn source [] row = .ok value ∧ (value.mapObjects
              (Renderer.renderRow ⟨compiler.schema, compiler.data?⟩ (compiler.schema.type field.target)
                children)).outcome = .ok object :=
        RowContext.rendered_object_iff hrecord
      rw [display, compose_composite hcomposite hrecord]
      change ((compiler.project field plan record).run source).mapError EngineError.backend >>= _ = _ ↔ _
      rw [run_project_list hlist hrows, and_iff_right ⟨record, rfl⟩]
      constructor
      · intro h
        obtain ⟨raw, hvalue, hrendered⟩ := Outcome.bind_ok_iff.mp h
        obtain ⟨values, hvalues, rfl⟩ := Outcome.map_ok_iff.mp (Outcome.mapError_ok_iff.mp hvalue)
        rw [Renderer.renderField_array hcomposite] at hrendered
        obtain ⟨objects, hobjects, rfl⟩ := Outcome.map_ok_iff.mp hrendered
        refine ⟨objects, Outcome.mapM_ok_iff.mpr ?_, rfl⟩
        exact (Outcome.forall₂_comp (Outcome.mapM_ok_iff.mp hvalues) (Outcome.mapM_ok_iff.mp hobjects)).imp
          fun row object hbetween => (hrow row object).mpr hbetween
      · rintro ⟨objects, hobjects, rfl⟩
        obtain ⟨values, hvalues, hrendered⟩ := Outcome.exists_between
          ((Outcome.mapM_ok_iff.mp hobjects).imp fun row object hobject => (hrow row object).mp hobject)
        refine Outcome.bind_ok_iff.mpr ⟨.array values, ?_, ?_⟩
        · exact Outcome.mapError_ok_iff.mpr (Outcome.map_ok_iff.mpr ⟨values, Outcome.mapM_ok_iff.mpr hvalues, rfl⟩)
        · rw [Renderer.renderField_array hcomposite]
          exact Outcome.map_ok_iff.mpr ⟨objects, Outcome.mapM_ok_iff.mpr hrendered, rfl⟩

end Compiler

/-- A list of rows that is selected from: what binds the selections and compiles them, the field and the
plan of the list, the depth of its selections in the query, and how deep its records are nested. -/
structure Listing where
  binder : Binder
  spread : Binder.SpreadBinding
  tier : Tier
  data? : Option Value
  source : Source
  field : Field
  plan : Plan
  depth : Nat
  nesting : Nat

namespace Listing

def schema (listing : Listing) : Schema :=
  listing.binder.schema

def compiler (listing : Listing) : Compiler :=
  ⟨listing.schema, listing.tier, listing.data?⟩

/-- A row of the list. -/
def rowContext (listing : Listing) (row : Value) : RowContext :=
  ⟨listing.compiler, listing.nesting, listing.source, [], row⟩

/-- What is shown of the list for some selections. -/
def shown (listing : Listing) (selections : List Selection) : Except EngineError Value := do
  let level ← listing.binder.bindSelections listing.spread listing.field.target none listing.depth selections
  listing.compiler.display listing.source listing.field listing.plan (BoundSelection.merge level) listing.nesting

/-- The list holds some rows of a composite type of a completed schema, and plans may cast them. -/
structure Holds (listing : Listing) (rows : List Value) : Prop where
  completed : listing.schema.Completed
  target_lt : listing.field.target < listing.schema.types.length
  composite : (listing.schema.type listing.field.target).isLeaf = false
  isList : listing.field.isList = true
  casts : listing.tier.casts = true
  rows : listing.plan.run listing.source = .ok (.array rows)

/-- A selection inside a fragment on a type. -/
def inside (listing : Listing) (actual : TypeId) (selection : Selection) : Selection :=
  .inline (some (listing.schema.type actual).name) [selection]

namespace Holds

variable {listing : Listing} {rows : List Value} (h : listing.Holds rows)

include h

/-- The list with one selection is shown row by row. -/
theorem shown_single_iff {bound : BoundSelection} {set : List Selection} {value : Value}
    (hbound : listing.binder.bindSelections listing.spread listing.field.target none listing.depth set =
      .ok [bound]) :
    listing.shown set = .ok value ↔
      (∃ record, (listing.compiler.record (listing.schema.type listing.field.target) [bound]
        listing.nesting).outcome = .ok record) ∧ ∃ objects, rows.mapM (fun row =>
          ((listing.rowContext row).rendered listing.field.target [bound]).map Value.object) = .ok objects ∧
            value = .array objects := by
  have hmerge : BoundSelection.merge [bound] = [bound] := by
    cases bound
    rfl
  rw [Listing.shown, hbound]
  change listing.compiler.display _ _ _ (BoundSelection.merge [bound]) _ = _ ↔ _
  rw [hmerge]
  exact Compiler.display_list_iff h.isList h.composite h.rows

end Holds

end Listing

end GraphQuery
