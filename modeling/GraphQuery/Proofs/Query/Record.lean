import GraphQuery.Proofs.Outcome
import GraphQuery.Proofs.Query.RecordKey
import GraphQuery.Proofs.Value.Members

/-! Records. Compiling a level binds the first selection of each key, and evaluating the record on a row
answers just these: a record is there when each of them has an answer, and it holds the answers under
their keys, with the name of the type of the row where a selection needs it. -/

namespace GraphQuery

theorem Traced.outcome_mapM {α β : Type} (step : α → Traced β) (items : List α) :
    (items.mapM step).outcome = items.mapM fun item => (step item).outcome := by
  induction items with
  | nil => rfl
  | cons item rest ih =>
      rw [List.mapM_cons, List.mapM_cons, Traced.outcome_bind]
      refine congrArg (_ >>= ·) (funext fun result => ?_)
      rw [Traced.outcome_bind, ih]
      rfl

theorem Plan.evalBindings_eq_mapM (source : Source) (vars : List (String × Value)) (row : Value)
    (bindings : List (String × Plan)) :
    Plan.evalBindings source vars row bindings =
      bindings.mapM fun binding => (binding.2.evalIn source vars row).map (binding.1, ·) := by
  induction bindings with
  | nil => rfl
  | cons binding rest ih =>
      rw [List.mapM_cons, ← ih, evalBindings]
      cases binding.2.evalIn source vars row <;> rfl

namespace Compiler

variable (compiler : Compiler) (owner : SchemaType) (depth : Nat)

/-- The plan that a selection has in the records of a type. -/
def binding (selection : BoundSelection) : Traced Plan := do
  let field := compiler.schema.field selection.field
  let base := compiler.rowOf owner field
  let plan ← field.tracedPlan ⟨parentOf field base depth, none, compiler.data?⟩ selection.arguments
  let composed ← compiler.compose field plan selection.children (depth + 1)
  pure (compiler.guardPartial owner field (bindParent field base depth composed))

theorem bindSelection_eq (key : String) (bound : List (String × Plan)) (selection : BoundSelection) :
    compiler.bindSelection owner depth key bound selection =
      if (bound.lookup key).isSome then pure bound
      else (do
        let plan ← compiler.binding owner depth selection
        pure (bound ++ [(key, plan)])) := by
  cases selection with
  | mk name alias? id condition? arguments children =>
      rw [bindSelection]
      split
      · rfl
      · simp only [binding, compose, record, bind_assoc, pure_bind]
        split <;> simp only [bind_assoc, pure_bind]

/-- The binding of a selection under its key. -/
def keyedBinding (key? : BoundSelection → Option String) (selection : BoundSelection) :
    Traced (String × Plan) := do
  let plan ← compiler.binding owner depth selection
  pure ((key? selection).getD "", plan)

theorem bindSelections_eq (key? : BoundSelection → Option String) (bound : List (String × Plan))
    (level : List BoundSelection) :
    compiler.bindSelections owner depth (level.map key?) bound level = (do
      let new ← (Keyed.firsts key? (fun key => (bound.lookup key).isSome) level).mapM
        (compiler.keyedBinding owner depth key?)
      pure (bound ++ new)) := by
  induction level generalizing bound with
  | nil =>
      rw [Keyed.firsts, List.mapM_nil, pure_bind, List.append_nil]
      rfl
  | cons selection rest ih =>
      rw [List.map_cons]
      cases hkey : key? selection with
      | none => rw [bindSelections, ih, Keyed.firsts_cons_none hkey]
      | some key =>
          rw [bindSelections, bindSelection_eq]
          cases hbound : (bound.lookup key).isSome with
          | true => rw [if_pos rfl, pure_bind, ih, Keyed.firsts_cons_taken hkey hbound]
          | false =>
              have htaken (plan : Plan) : (fun other => ((bound ++ [(key, plan)]).lookup other).isSome) =
                  fun other => decide (other = key) || (bound.lookup other).isSome := by
                funext other
                rw [List.lookup_append, Keyed.lookup_entry, Option.isSome_or, Bool.or_comm]
                by_cases heq : other = key <;> simp [heq]
              rw [if_neg Bool.false_ne_true, Keyed.firsts_cons_new hkey hbound, List.mapM_cons]
              simp only [keyedBinding, hkey, Option.getD_some, bind_assoc, pure_bind, ih, htaken,
                List.append_assoc, List.singleton_append]

variable {compiler owner depth}

theorem record_eq {level : List BoundSelection} {key? : BoundSelection → Option String}
    (hkeys : compiler.schema.recordKeys owner level = .ok (level.map key?)) :
    compiler.record owner level depth = (do
      let bound ← (Keyed.firsts key? (fun _ => false) level).mapM
        (compiler.keyedBinding owner depth key?)
      pure (compiler.recordOf owner level bound)) := by
  rw [record, hkeys, Traced.ofExcept_ok, pure_bind, bindSelections_eq, bind_assoc]
  simp only [List.lookup_nil, Option.isSome_none, List.nil_append, pure_bind]

end Compiler

namespace SchemaType

/-- The name that the plan of a type gives to the type of a row. -/
def rowTypeName (type : SchemaType) (row : Value) : String :=
  match type.typename.eval .inProcess row with
  | .ok (.string name) => name
  | _ => type.name

end SchemaType

/-- The plan that names the type of a row always does, and depends on nothing but the row. -/
theorem Schema.WellFormed.evalIn_typename {schema : Schema} (hschema : schema.WellFormed)
    {type : SchemaType} (hmem : type ∈ schema.types) (source : Source) (vars : List (String × Value))
    (row : Value) : type.typename.evalIn source vars row = .ok (.string (type.rowTypeName row)) := by
  obtain ⟨actual, _, heval⟩ := hschema.typename type hmem row
  rw [SchemaType.rowTypeName, Plan.eval, heval, heval]

/-- A row on which records are evaluated: how they are compiled, and what their plans find around it. -/
structure RowContext where
  compiler : Compiler
  depth : Nat
  source : Source
  vars : List (String × Value)
  row : Value

namespace RowContext

variable (context : RowContext) (owner : SchemaType)

/-- The schema that a row belongs to. -/
abbrev schema : Schema :=
  context.compiler.schema

/-- What a selection answers on the row. -/
def answer (selection : BoundSelection) : Except EngineError Value := do
  let plan ← (context.compiler.binding owner context.depth selection).outcome
  (plan.evalIn context.source context.vars context.row).mapError .backend

/-- The answer of a selection that has one. -/
def answered (selection : BoundSelection) : Value :=
  match context.answer owner selection with
  | .ok value => value
  | .error _ => .null

/-- The record of a level on the row. -/
def record (level : List BoundSelection) : Except EngineError Value := do
  let plan ← (context.compiler.record owner level context.depth).outcome
  (plan.evalIn context.source context.vars context.row).mapError .backend

/-- The name of the type of the row, for a level that needs it. -/
def typenameEntries (level : List BoundSelection) : List (String × Value) :=
  if level.any (Compiler.needsTypename context.schema) then
    [(typenameKey, .string (owner.rowTypeName context.row))]
  else []

/-- What a record holds: the name of the type where it is needed, and the answers under their keys. -/
def entries (key? : BoundSelection → Option String) (level : List BoundSelection) :
    List (String × Value) :=
  context.typenameEntries owner level ++
    (Keyed.firsts key? (fun _ => false) level).map fun selection =>
      ((key? selection).getD "", context.answered owner selection)

variable {context owner} {level : List BoundSelection} {key? : BoundSelection → Option String}

theorem answered_eq {selection : BoundSelection} {value : Value}
    (h : context.answer owner selection = .ok value) : context.answered owner selection = value := by
  rw [answered, h]

/-- The plans of a record, evaluated one by one. -/
theorem evalIn_recordOf (hschema : context.schema.WellFormed)
    (howner : owner ∈ context.schema.types) {bound : List (String × Plan)}
    (hbound : ∀ entry ∈ bound, entry.1 ≠ typenameKey) :
    (context.compiler.recordOf owner level bound).evalIn context.source context.vars context.row = (do
      let values ← Plan.evalBindings context.source context.vars context.row bound
      pure (.ofEntries (context.typenameEntries owner level ++ values))) := by
  have hfilter : bound.filter (fun entry => entry.1 != typenameKey) = bound := by
    rw [List.filter_eq_self]
    exact fun entry hmem => bne_iff_ne.mpr (hbound entry hmem)
  rw [Compiler.recordOf, typenameEntries, hfilter]
  split
  · rw [Plan.evalIn, Plan.evalBindings, hschema.evalIn_typename howner]
    cases Plan.evalBindings context.source context.vars context.row bound <;> rfl
  · rw [Plan.evalIn]
    cases Plan.evalBindings context.source context.vars context.row bound <;> rfl

section

variable (hschema : context.schema.WellFormed) (howner : owner ∈ context.schema.types)
  (hkeys : context.schema.recordKeys owner level = .ok (level.map key?))
  (hkeying : context.schema.Keying level key?)

include hkeying in
theorem keyed_of_mem_firsts {selection : BoundSelection}
    (hmem : selection ∈ Keyed.firsts key? (fun _ => false) level) :
    selection ∈ level ∧ ∃ key, key? selection = some key ∧ key ≠ typenameKey := by
  obtain ⟨hlevel, key, hkey, _⟩ := Keyed.mem_firsts hmem
  refine ⟨hlevel, key, hkey, ?_⟩
  rintro rfl
  exact hkeying.ne_typename selection hlevel hkey

include hschema howner hkeys hkeying

/-- The record of a level all of whose bindings have plans. -/
theorem record_of_plans {plan : BoundSelection → Plan}
    (hplan : ∀ selection ∈ Keyed.firsts key? (fun _ => false) level,
      (context.compiler.binding owner context.depth selection).outcome = .ok (plan selection)) :
    context.record owner level = (do
      let values ← (Keyed.firsts key? (fun _ => false) level).mapM fun selection =>
        ((plan selection).evalIn context.source context.vars context.row).map
          ((key? selection).getD "", ·)
      pure (.ofEntries (context.typenameEntries owner level ++ values)) :
        Except StoreError Value).mapError .backend := by
  have hbound : ((Keyed.firsts key? (fun _ => false) level).mapM
      (context.compiler.keyedBinding owner context.depth key?)).outcome = .ok
        ((Keyed.firsts key? (fun _ => false) level).map fun selection =>
          ((key? selection).getD "", plan selection)) := by
    rw [Traced.outcome_mapM]
    refine Outcome.mapM_ok_of fun selection hmem => ?_
    rw [Compiler.keyedBinding, Traced.outcome_bind, hplan selection hmem]
    rfl
  have hne : ∀ entry ∈ (Keyed.firsts key? (fun _ => false) level).map fun selection =>
      ((key? selection).getD "", plan selection), entry.1 ≠ typenameKey := by
    intro entry hmem
    obtain ⟨selection, hfirst, rfl⟩ := List.mem_map.mp hmem
    obtain ⟨_, key, hkey, hne⟩ := keyed_of_mem_firsts hkeying hfirst
    rw [hkey]
    exact hne
  rw [record, Compiler.record_eq hkeys, Traced.outcome_bind, hbound]
  change ((context.compiler.recordOf owner level _).evalIn _ _ _).mapError _ = _
  rw [evalIn_recordOf hschema howner hne, Plan.evalBindings_eq_mapM, List.mapM_map]
  rfl

/-- A record is there when all that it binds have answers, and holds these. -/
theorem record_ok (h : ∀ selection ∈ Keyed.firsts key? (fun _ => false) level,
      ∃ value, context.answer owner selection = .ok value) :
    context.record owner level = .ok (.ofEntries (context.entries owner key? level)) := by
  have hplans : ∀ selection ∈ Keyed.firsts key? (fun _ => false) level, ∃ plan,
      (context.compiler.binding owner context.depth selection).outcome = .ok plan ∧
        plan.evalIn context.source context.vars context.row =
          .ok (context.answered owner selection) := by
    intro selection hmem
    obtain ⟨value, hvalue⟩ := h selection hmem
    rw [answered_eq hvalue]
    obtain ⟨plan, hplan, heval⟩ := Outcome.bind_ok_iff.mp hvalue
    exact ⟨plan, hplan, Outcome.mapError_ok_iff.mp heval⟩
  choose! plan hplan heval using hplans
  have hvalues : ((Keyed.firsts key? (fun _ => false) level).mapM fun selection =>
      ((plan selection).evalIn context.source context.vars context.row).map
        ((key? selection).getD "", ·)) = .ok ((Keyed.firsts key? (fun _ => false) level).map
          fun selection => ((key? selection).getD "", context.answered owner selection)) := by
    refine Outcome.mapM_ok_of fun selection hmem => ?_
    rw [heval selection hmem]
    rfl
  rw [record_of_plans hschema howner hkeys hkeying hplan, hvalues]
  rfl

/-- Whatever a record binds has an answer when the record is there. -/
theorem answer_of_record {value : Value} (h : context.record owner level = .ok value) :
    ∀ selection ∈ Keyed.firsts key? (fun _ => false) level,
      ∃ answer, context.answer owner selection = .ok answer := by
  have hplans : ∀ selection ∈ Keyed.firsts key? (fun _ => false) level, ∃ plan,
      (context.compiler.binding owner context.depth selection).outcome = .ok plan := by
    intro selection hmem
    obtain ⟨plan, hplan, _⟩ := Outcome.bind_ok_iff.mp h
    rw [Compiler.record_eq hkeys, Traced.outcome_bind] at hplan
    obtain ⟨bound, hbound, _⟩ := Outcome.bind_ok_iff.mp hplan
    rw [Traced.outcome_mapM] at hbound
    obtain ⟨entry, _, hentry⟩ := Outcome.ok_of_mapM hbound hmem
    rw [Compiler.keyedBinding, Traced.outcome_bind] at hentry
    obtain ⟨plan, hplan, _⟩ := Outcome.bind_ok_iff.mp hentry
    exact ⟨plan, hplan⟩
  choose! plan hplan using hplans
  intro selection hmem
  rw [record_of_plans hschema howner hkeys hkeying hplan] at h
  obtain ⟨values, hvalues, _⟩ := Outcome.bind_ok_iff.mp (Outcome.mapError_ok_iff.mp h)
  obtain ⟨entry, _, hentry⟩ := Outcome.ok_of_mapM hvalues hmem
  obtain ⟨answer, hanswer, _⟩ := Outcome.map_ok_iff.mp hentry
  refine ⟨answer, ?_⟩
  rw [RowContext.answer, hplan selection hmem]
  exact Outcome.mapError_ok_iff.mpr hanswer

end

end RowContext

end GraphQuery
