import GraphQuery.Proofs.Query.Record
import GraphQuery.Query.Render

/-! Rendering rows. The object of a row shows, in order, the first selection of each response key that
applies to the row; where the record of the row holds all that its level binds, each of them is shown
with the answer of the first selection that asks for the same field under the same key. -/

namespace GraphQuery

namespace Renderer

variable (renderer : Renderer)

/-- What a response shows for a selection of whose field it has the value. -/
def present (selection : BoundSelection) (raw : Value) : Traced Value :=
  let field := renderer.schema.field selection.field
  let target := renderer.schema.type field.target
  if field.isTypename || target.isLeaf then pure raw
  else raw.mapObjects (renderer.renderRow target selection.children)

theorem renderEntry_eq (type : SchemaType) (row : Members) (key? : Option String) (out : Members)
    (selection : BoundSelection) :
    renderer.renderEntry type row key? out selection =
      if (Members.get? selection.outputName out).isSome then pure out
      else if !renderer.applies (renderer.runtimeType? row) selection.condition? then pure out
      else (do
        match ← renderer.entry type row (renderer.schema.field selection.field) selection.arguments key?
          selection.children with
        | none => pure out
        | some raw =>
          let value ← renderer.present selection raw
          pure (Members.insert selection.outputName value out)) := by
  cases selection with
  | mk name alias? id condition? arguments children =>
      rw [renderEntry]
      refine if_congr Iff.rfl rfl (if_congr Iff.rfl rfl (congrArg (_ >>= ·) (funext fun raw? => ?_)))
      cases raw? with
      | none => rfl
      | some raw =>
          simp only [present]
          split <;> rfl

/-- The key under which a selection is shown on rows of some type, if it applies to them. -/
def responseKey? (runtime? : Option TypeId) (selection : BoundSelection) : Option String :=
  if renderer.applies runtime? selection.condition? then some selection.outputName else none

/-- What a response shows for a selection on a row that holds a value for it. -/
def shown (type : SchemaType) (row : Members) (key? : Option String) (selection : BoundSelection) :
    Traced Value := do
  let raw? ← renderer.entry type row (renderer.schema.field selection.field) selection.arguments key?
    selection.children
  renderer.present selection (raw?.getD .null)

/-- A selection that is shown, under its response key. -/
def keyedShown (type : SchemaType) (row : Members) (key? : BoundSelection → Option String)
    (selection : BoundSelection) : Traced (String × Value) := do
  let value ← renderer.shown type row (key? selection) selection
  pure (selection.outputName, value)

/-- Does a record hold a value for each selection of a level that has a place in it? -/
def Holds (row : Members) (key? : BoundSelection → Option String) (level : List BoundSelection) : Prop :=
  ∀ selection ∈ level, renderer.schema.keyed selection = true →
    ((key? selection).bind fun key => Members.get? key row).isSome = true

/-- Is there a value for a selection on a row? Post fields and names of types need none in its record. -/
def fills (row : Members) (key? : Option String) (selection : BoundSelection) : Bool :=
  !renderer.schema.keyed selection || (key?.bind fun key => Members.get? key row).isSome

/-- The key under which a selection is shown on a row, if it applies and there is a value for it. -/
def shownKey? (row : Members) (entry : BoundSelection × Option String) : Option String :=
  if renderer.fills row entry.2 entry.1 then renderer.responseKey? (renderer.runtimeType? row) entry.1 else none

/-- What a selection with a key in the record of a row shows, under its response key. -/
def shownEntry (type : SchemaType) (row : Members) (entry : BoundSelection × Option String) :
    Traced (String × Value) := do
  let value ← renderer.shown type row entry.2 entry.1
  pure (entry.1.outputName, value)

variable {renderer} {type : SchemaType} {row : Members} {key? : BoundSelection → Option String}

theorem responseKey?_of_applies {runtime? : Option TypeId} {selection : BoundSelection}
    (h : renderer.applies runtime? selection.condition? = true) :
    renderer.responseKey? runtime? selection = some selection.outputName :=
  if_pos h

theorem responseKey?_of_fails {runtime? : Option TypeId} {selection : BoundSelection}
    (h : renderer.applies runtime? selection.condition? = false) :
    renderer.responseKey? runtime? selection = none := by
  rw [responseKey?, h, if_neg Bool.false_ne_true]

theorem responseKey?_eq_some {runtime? : Option TypeId} {selection : BoundSelection} {key : String} :
    renderer.responseKey? runtime? selection = some key ↔
      renderer.applies runtime? selection.condition? = true ∧ selection.outputName = key := by
  cases happlies : renderer.applies runtime? selection.condition? with
  | true => rw [responseKey?_of_applies happlies, Option.some.injEq, and_iff_right rfl]
  | false =>
      rw [responseKey?_of_fails happlies]
      constructor
      · intro h
        cases h
      · rintro ⟨h, _⟩
        cases h

/-- A selection has an entry exactly when there is a value for it. -/
theorem entry_eq (type : SchemaType) (row : Members) (key? : Option String) (selection : BoundSelection) :
    renderer.entry type row (renderer.schema.field selection.field) selection.arguments key? selection.children =
      if renderer.fills row key? selection then (do
        let raw? ← renderer.entry type row (renderer.schema.field selection.field) selection.arguments key?
          selection.children
        pure (some (raw?.getD .null)))
      else pure none := by
  unfold entry fills Schema.keyed
  cases hpost : (renderer.schema.field selection.field).isPost with
  | true =>
      rw [Bool.or_true, Bool.not_true, Bool.not_false, Bool.true_or, if_pos rfl, if_pos rfl, bind_assoc]
      rfl
  | false =>
      cases (renderer.schema.field selection.field).isTypename with
      | true => rfl
      | false =>
          cases hvalue : key?.bind fun key => Members.get? key row with
          | none => rfl
          | some value => rfl

/-- Rendering shows the first selection of each key that is not taken, of those that are shown at all. -/
theorem renderEntries_zip (level : List BoundSelection) (keys : List (Option String)) (out : Members) :
    renderer.renderEntries type row keys out level = (do
      let shown ← (Keyed.firsts (renderer.shownKey? row) (fun key => (Members.get? key out).isSome)
        (level.zip keys)).mapM (renderer.shownEntry type row)
      pure (shown.foldl (fun out entry => Members.insert entry.1 entry.2 out) out)) := by
  induction level generalizing keys out with
  | nil => rfl
  | cons selection rest ih =>
      match keys with
      | [] => rfl
      | key? :: keys =>
          rw [renderEntries, renderEntry_eq, List.zip_cons_cons]
          cases hkey : renderer.responseKey? (renderer.runtimeType? row) selection with
          | none =>
              have hnone : renderer.shownKey? row (selection, key?) = none := by
                rw [shownKey?, hkey, ite_self]
              have hfails : renderer.applies (renderer.runtimeType? row) selection.condition? = false := by
                by_contra happlies
                rw [responseKey?_of_applies (Bool.not_eq_false _ ▸ happlies)] at hkey
                cases hkey
              rw [Keyed.firsts_cons_none hnone, hfails, Bool.not_false, if_pos rfl, ite_self, pure_bind, ih]
          | some key =>
              obtain ⟨happlies, rfl⟩ := responseKey?_eq_some.mp hkey
              rw [happlies, Bool.not_true, if_neg Bool.false_ne_true, entry_eq]
              cases hfills : renderer.fills row key? selection with
              | false =>
                  have hnone : renderer.shownKey? row (selection, key?) = none := by
                    rw [shownKey?, hfills, if_neg Bool.false_ne_true]
                  rw [Keyed.firsts_cons_none hnone, if_neg Bool.false_ne_true, pure_bind, ite_self, pure_bind, ih]
              | true =>
                  have hsome : renderer.shownKey? row (selection, key?) = some selection.outputName := by
                    rw [shownKey?, hfills, if_pos rfl, hkey]
                  cases hout : (Members.get? selection.outputName out).isSome with
                  | true => rw [if_pos rfl, pure_bind, ih, Keyed.firsts_cons_taken hsome hout]
                  | false =>
                      rw [if_neg Bool.false_ne_true, if_pos rfl, Keyed.firsts_cons_new hsome hout, List.mapM_cons]
                      simp only [shownEntry, shown, bind_assoc, pure_bind, ih, Members.isSome_insert, List.foldl_cons]

/-- On a record that holds all of its level, the selections that are shown are those that apply. -/
theorem renderEntries_eq {level : List BoundSelection} (hholds : renderer.Holds row key? level)
    (out : Members) :
    renderer.renderEntries type row (level.map key?) out level = (do
      let shown ← (Keyed.firsts (renderer.responseKey? (renderer.runtimeType? row))
        (fun key => (Members.get? key out).isSome) level).mapM (renderer.keyedShown type row key?)
      pure (shown.foldl (fun out entry => Members.insert entry.1 entry.2 out) out)) := by
  have hzip : level.zip (level.map key?) = level.map fun selection => (selection, key? selection) := by
    rw [List.zip_eq_zipWith, List.zipWith_map_right, List.zipWith_self]
  have hkeys : ∀ selection ∈ level, renderer.shownKey? row (selection, key? selection) =
      renderer.responseKey? (renderer.runtimeType? row) selection := by
    intro selection hmem
    refine if_pos ?_
    rw [fills, Bool.or_eq_true, Bool.not_eq_true']
    cases hkeyed : renderer.schema.keyed selection with
    | false => exact Or.inl rfl
    | true => exact Or.inr (hholds selection hmem hkeyed)
  rw [renderEntries_zip, hzip, Keyed.firsts_map, Keyed.firsts_congr hkeys, List.mapM_map]
  rfl

theorem renderRow_eq {level : List BoundSelection}
    (hkeys : renderer.schema.recordKeys type level = .ok (level.map key?))
    (hholds : renderer.Holds row key? level) :
    renderer.renderRow type level row = (do
      let shown ← (Keyed.firsts (renderer.responseKey? (renderer.runtimeType? row))
        (fun _ => false) level).mapM (renderer.keyedShown type row key?)
      pure (Members.ofList shown)) := by
  rw [renderRow, hkeys, Traced.ofExcept_ok, pure_bind, renderEntries_eq hholds]
  rfl

end Renderer

end GraphQuery
