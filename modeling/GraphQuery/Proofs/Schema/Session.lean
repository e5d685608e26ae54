import GraphQuery.Proofs.Schema.Completed
import GraphQuery.Schema.Session

/-! Sessions leave no trace of what has failed. Every operation makes all its checks before its first write;
only the rule of a leaf is registered after its type, and an open draft takes every rule. The calls of a
session that are answered therefore get the same answers without those that are not, and the first
completion ends the session for all that follows. -/

namespace GraphQuery.Session

open Completion (DraftM)
open Outcome (settle run_bind run_check run_guard)

/-! ### Operations -/

theorem run_pushType (shape : Shape) (draft : Draft) :
    (pushType shape).run draft = (.ok draft.nextType, draft.pushType shape) := rfl

theorem run_declareShape (shape : Shape) (draft : Draft) :
    (declareShape shape).run draft = settle draft (draft.declareShape shape) := by
  rw [declareShape, Draft.declareShape]
  refine run_guard fun _ => run_guard fun _ => ?_
  rw [run_bind, Outcome.run_get]
  exact run_guard fun _ => run_pushType shape draft

theorem run_declareType (shape : Shape) (draft : Draft) :
    (declareType shape).run draft = settle draft (draft.declareType shape) :=
  run_check rfl fun _ _ => run_guard fun _ => run_declareShape shape draft

theorem run_describeType (id : TypeId) (text : String) (draft : Draft) :
    (describeType id text).run draft = settle draft ((draft.describeType id text).map ((), ·)) := by
  simp only [Draft.describeType, Outcome.map_bind]
  exact run_check rfl fun _ _ => run_check rfl fun _ _ => rfl

theorem run_declared (id : TypeId) (draft : Draft) : (declared id).run draft = (draft.declared id, draft) := rfl

/-- The owner of a field is the same before and after the field itself is written. -/
theorem run_insertField (owner : TypeId) (spec : FieldSpec) (draft : Draft) :
    (insertField owner spec).run draft = settle draft (draft.insertField owner spec) := by
  rw [insertField, Draft.insertField]
  refine run_guard fun _ => run_check (run_declared owner draft) fun type htype => ?_
  rw [run_bind, Outcome.run_get]
  refine run_guard fun _ => run_guard fun _ => ?_
  refine run_check (Outcome.run_lift ..) fun parameters _ => run_check (Outcome.run_lift ..) fun target _ => ?_
  have hdeclared (fields : List DraftField) :
      (declared owner).run { draft with fields := fields } = (.ok type, { draft with fields := fields }) :=
    congrArg (·, _) htype
  simp only [run_bind, Outcome.run_modify, hdeclared]
  rfl

theorem run_addField (owner : TypeId) (spec : FieldSpec) (draft : Draft) :
    (addField owner spec).run draft = settle draft (draft.addField owner spec) :=
  run_check rfl fun _ _ => run_guard fun _ => run_insertField owner spec draft

theorem run_addComputedField (owner : TypeId) (spec : FieldSpec) (compute : ComputeFunction) (draft : Draft) :
    (addComputedField owner spec compute).run draft =
      settle draft (draft.addComputedField owner spec compute) :=
  run_addField owner (spec.computed compute) draft

theorem run_addMutation (spec : FieldSpec) (effect : Effect) (draft : Draft) :
    (addMutation spec effect).run draft = settle draft (draft.addMutation spec effect) := by
  rw [addMutation, run_bind, Outcome.run_get, Draft.addMutation]
  exact run_addField draft.mutation (spec.mutation effect) draft

theorem run_addInterface (interface implementer : TypeId) (draft : Draft) :
    (addInterface interface implementer).run draft =
      settle draft ((draft.addInterface interface implementer).map ((), ·)) := by
  simp only [Draft.addInterface, Outcome.map_bind, apply_ite (Except.map _)]
  refine run_check rfl fun _ _ => run_check rfl fun _ _ => run_guard fun _ => ?_
  refine run_check rfl fun type _ => run_guard fun _ => ?_
  split <;> rfl

theorem run_addUnionMember (union member : TypeId) (draft : Draft) :
    (addUnionMember union member).run draft =
      settle draft ((draft.addUnionMember union member).map ((), ·)) := by
  simp only [Draft.addUnionMember, Outcome.map_bind, apply_ite (Except.map _)]
  refine run_check rfl fun _ _ => run_check rfl fun joined _ => run_check rfl fun type _ => ?_
  refine run_guard fun _ => ?_
  split <;> rfl

/-- The rule comes after the type, but a registry that takes rules takes this one as well. -/
theorem run_addLeaf (kind : TypeKind) (name : String) (rule : Rule) {draft : Draft}
    (hrules : draft.completed = false → draft.rules.frozen = false) :
    (addLeaf kind name rule).run draft = settle draft (draft.addLeaf kind name rule) := by
  rw [addLeaf, Draft.addLeaf, run_bind, run_declareType]
  cases hdeclared : draft.declareType (.ofKind kind name) with
  | error error => rfl
  | ok declared =>
      obtain ⟨id, grown⟩ := declared
      obtain ⟨hopen, _, hshape⟩ := Draft.declareType_ok hdeclared
      obtain ⟨_, _, _, _, _, rfl⟩ := Draft.declareShape_ok hshape
      have hregister : (draft.pushType (.ofKind kind name)).rules.register name rule =
          .ok { draft.rules with rules := (name, rule) :: draft.rules.rules } :=
        if_neg (Bool.eq_false_iff.mp (hrules hopen))
      simp only [settle, run_bind, Outcome.run_get, Outcome.run_lift, hregister]
      change _ = settle draft ((draft.pushType (.ofKind kind name)).rules.register name rule >>= fun rules =>
        pure (id, { draft.pushType (.ofKind kind name) with rules := rules }))
      rw [hregister]
      rfl

theorem run_complete (draft : Draft) : complete.run draft = draft.complete := rfl

/-! ### Calls -/

/-- What a call is answered. -/
inductive Answer where
  | type (id : TypeId)
  | field (id : FieldId)
  | done
  | schema (schema : Schema)

/-- The answer to a call or the fault that was found. -/
abbrev Reply := Except SchemaError Answer

/-- A declaration as a call. -/
def declare : Declaration → DraftM Answer
  | .type shape => return .type (← declareType shape)
  | .description id text => do describeType id text; return .done
  | .field owner spec => return .field (← addField owner spec)
  | .computedField owner spec compute => return .field (← addComputedField owner spec compute)
  | .mutation spec effect => return .field (← addMutation spec effect)
  | .conformance interface implementer => do addInterface interface implementer; return .done
  | .unionMember union member => do addUnionMember union member; return .done
  | .scalar name rule => return .type (← addScalar name rule)
  | .enum name values => return .type (← addEnum name values)

/-- A call of a session. -/
inductive Call where
  | declaration (declaration : Declaration)
  | complete

def Call.perform : Call → DraftM Answer
  | .declaration made => declare made
  | .complete => return .schema (← Session.complete)

/-- The reply to a call. -/
def reply (draft : Draft) (call : Call) : Reply :=
  (call.perform.run draft).1

/-- The draft after a call. -/
def next (draft : Draft) (call : Call) : Draft :=
  (call.perform.run draft).2

/-- The calls of a session with their replies. -/
def transcript (draft : Draft) : List Call → List (Call × Reply)
  | [] => []
  | call :: rest => (call, reply draft call) :: transcript (next draft call) rest

/-- The draft after the calls of a session. -/
def after (draft : Draft) (calls : List Call) : Draft :=
  calls.foldl next draft

/-- A transcript from which some of the declarations that have failed are left out. -/
inductive Pruned : List (Call × Reply) → List (Call × Reply) → Prop where
  | nil : Pruned [] []
  | keep {entries kept : List (Call × Reply)} (entry : Call × Reply) :
      Pruned entries kept → Pruned (entry :: entries) (entry :: kept)
  | drop {entries kept : List (Call × Reply)} (declaration : Declaration) (error : SchemaError) :
      Pruned entries kept → Pruned ((.declaration declaration, .error error) :: entries) kept


theorem Pruned.refl (entries : List (Call × Reply)) : Pruned entries entries := by
  induction entries with
  | nil => exact .nil
  | cons entry rest ih => exact .keep entry ih

/-- All declarations that have failed may be left out at once. -/
theorem pruned_filter (entries : List (Call × Reply)) :
    Pruned entries (entries.filter fun entry => entry.2.isOk || entry.1 matches .complete) := by
  induction entries with
  | nil => exact .nil
  | cons entry rest ih =>
      obtain ⟨call, reply⟩ := entry
      cases call with
      | complete =>
          rw [List.filter_cons_of_pos (by simp)]
          exact .keep _ ih
      | declaration made =>
          cases reply with
          | ok answer =>
              rw [List.filter_cons_of_pos rfl]
              exact .keep _ ih
          | error error =>
              rw [List.filter_cons_of_neg (by simp [Except.isOk, Except.toBool])]
              exact .drop made error ih

/-! ### What a call leaves -/

/-- A step that leaves a draft as a declaration says, or as it was where the declaration fails. -/
def Settles (draft : Draft) (step : DraftM Answer) (outcome : Except SchemaError Draft) : Prop :=
  ∃ result, step.run draft = settle draft result ∧ result.map Prod.snd = outcome

theorem settles_map {α : Type} {draft : Draft} {step : DraftM α} {result : Except SchemaError (α × Draft)}
    (h : step.run draft = settle draft result) (answer : α → Answer) :
    Settles draft (do return answer (← step)) (result.map Prod.snd) := by
  refine ⟨result.map fun entry => (answer entry.1, entry.2), ?_, ?_⟩
  · rw [run_bind, h]
    cases result <;> rfl
  · cases result <;> rfl

theorem settles_unit {draft : Draft} {step : DraftM Unit} {result : Except SchemaError Draft}
    (h : step.run draft = settle draft (result.map ((), ·))) (answer : Answer) :
    Settles draft (do step; return answer) result := by
  refine ⟨result.map (answer, ·), ?_, ?_⟩
  · rw [run_bind, h]
    cases result <;> rfl
  · cases result <;> rfl

/-- An open draft takes rules and shows no schema. -/
def Ready (draft : Draft) : Prop :=
  draft.completed = false → draft.rules.frozen = false ∧ draft.schema? = none

theorem settles_declare {draft : Draft} (h : Ready draft) (declaration : Declaration) :
    Settles draft (declare declaration) (declaration.apply draft) := by
  have hrules : draft.completed = false → draft.rules.frozen = false := fun hopen => (h hopen).1
  cases declaration with
  | type shape => exact settles_map (run_declareType shape draft) .type
  | description id text => exact settles_unit (run_describeType id text draft) .done
  | field owner spec => exact settles_map (run_addField owner spec draft) .field
  | computedField owner spec compute => exact settles_map (run_addComputedField owner spec compute draft) .field
  | mutation spec effect => exact settles_map (run_addMutation spec effect draft) .field
  | conformance interface implementer => exact settles_unit (run_addInterface interface implementer draft) .done
  | unionMember union member => exact settles_unit (run_addUnionMember union member draft) .done
  | scalar name rule => exact settles_map (run_addLeaf .scalar name rule hrules) .type
  | enum name values => exact settles_map (run_addLeaf .enum name _ hrules) .type

theorem Settles.run {draft : Draft} {step : DraftM Answer} {outcome : Except SchemaError Draft}
    (h : Settles draft step outcome) :
    (∃ error, step.run draft = (.error error, draft) ∧ outcome = .error error) ∨
      ∃ answer grown, step.run draft = (.ok answer, grown) ∧ outcome = .ok grown := by
  obtain ⟨result, hrun, rfl⟩ := h
  cases result with
  | error error => exact Or.inl ⟨error, hrun, rfl⟩
  | ok entry => exact Or.inr ⟨entry.1, entry.2, hrun, rfl⟩

/-- A declaration that has failed leaves the draft as it was. -/
theorem next_of_error {draft : Draft} (h : Ready draft) {made : Declaration} {error : SchemaError}
    (herror : reply draft (.declaration made) = .error error) : next draft (.declaration made) = draft := by
  rcases (settles_declare h made).run with ⟨_, hrun, _⟩ | ⟨_, _, hrun, _⟩
  · exact congrArg Prod.snd hrun
  · cases (congrArg Prod.fst hrun).symm.trans herror

theorem closed_apply {draft : Draft} (h : draft.completed = true) (made : Declaration) :
    made.apply draft = .error .alreadyCompleted := by
  have hclosed : draft.ensureOpen = .error .alreadyCompleted := by
    rw [Draft.ensureOpen, h]
    rfl
  cases made <;>
    simp only [Declaration.apply, Draft.declareType, Draft.describeType, Draft.addField, Draft.addComputedField,
      Draft.addMutation, Draft.addInterface, Draft.addUnionMember, Draft.addScalar, Draft.addEnum, Draft.addLeaf,
      hclosed] <;>
    rfl

/-- Nothing happens to a draft that has been completed. -/
theorem closed_call {draft : Draft} (h : draft.completed = true) (call : Call) :
    reply draft call = .error .alreadyCompleted ∧ next draft call = draft := by
  cases call with
  | declaration made =>
      have hready : Ready draft := fun hopen => absurd (hopen.symm.trans h) Bool.false_ne_true
      rcases (settles_declare hready made).run with ⟨error, hrun, herror⟩ | ⟨_, _, _, hok⟩
      · rw [closed_apply h] at herror
        cases herror
        exact ⟨congrArg Prod.fst hrun, congrArg Prod.snd hrun⟩
      · rw [closed_apply h] at hok
        cases hok
  | complete =>
      have hcomplete : draft.complete = (.error .alreadyCompleted, draft) := by
        rw [Draft.complete, Draft.ensureOpen, h]
        rfl
      have hrun : Call.complete.perform.run draft = (.error .alreadyCompleted, draft) := by
        rw [Call.perform, run_bind, run_complete, hcomplete]
      exact ⟨congrArg Prod.fst hrun, congrArg Prod.snd hrun⟩

/-! ### Completion -/

theorem stable_closed :
    Completion.Stable fun draft => draft.completed = true ∧ draft.schema? = none where
  shape h hok := by
    obtain ⟨_, _, _, _, _, rfl⟩ := Draft.declareShape_ok hok
    exact h
  field h _ hok := by
    obtain ⟨_, _, _, _, _, _, _, _, _, _, rfl⟩ := Draft.insertField_ok hok
    exact h

/-- Completion closes a draft in any case, and fills the place of its schema if it succeeds. -/
theorem complete_closes {draft : Draft} (hopen : draft.completed = false) (hnone : draft.schema? = none) :
    draft.complete.2.completed = true ∧ draft.complete.2.isCompleted = draft.complete.1.isOk := by
  have hsteps := Completion.ensures_declarations stable_closed { draft with completed := true } ⟨rfl, hnone⟩
  have hensured : draft.ensureOpen = .ok () := by
    rw [Draft.ensureOpen, hopen]
    rfl
  unfold Draft.complete
  rw [hensured]
  dsimp only
  split
  · next hrun =>
      rw [hrun] at hsteps
      exact ⟨hsteps.1.1, congrArg Option.isSome hsteps.1.2⟩
  · next hrun =>
      rw [hrun] at hsteps
      split
      · exact ⟨hsteps.1.1, congrArg Option.isSome hsteps.1.2⟩
      · exact ⟨hsteps.1.1, rfl⟩

theorem reply_complete (draft : Draft) : reply draft .complete = draft.complete.1.map .schema := by
  rw [reply, Call.perform, run_bind, run_complete]
  generalize draft.complete = outcome
  obtain ⟨result, grown⟩ := outcome
  cases result <;> rfl

theorem complete_call {draft : Draft} (hopen : draft.completed = false) (hnone : draft.schema? = none) :
    (next draft .complete).completed = true ∧
      (next draft .complete).isCompleted = (reply draft .complete).isOk := by
  obtain ⟨hclosed, hfilled⟩ := complete_closes hopen hnone
  rw [next, reply, Call.perform, run_bind, run_complete]
  generalize draft.complete = outcome at hclosed hfilled ⊢
  obtain ⟨result, grown⟩ := outcome
  cases result <;> exact ⟨hclosed, hfilled⟩

end GraphQuery.Session

namespace GraphQuery

theorem Declaration.Change.kept {declaration : Declaration} {draft grown : Draft}
    (h : declaration.Change draft grown) :
    grown.completed = draft.completed ∧ grown.rules.frozen = draft.rules.frozen ∧
      grown.schema? = draft.schema? := by
  cases h with
  | type _ hshape =>
      obtain ⟨_, _, _, _, _, rfl⟩ := Draft.declareShape_ok hshape
      exact ⟨rfl, rfl, rfl⟩
  | leaf _ _ hshape =>
      obtain ⟨_, _, _, _, _, rfl⟩ := Draft.declareShape_ok hshape
      exact ⟨rfl, rfl, rfl⟩
  | field _ _ hok =>
      obtain ⟨_, _, _, _, _, _, _, _, _, _, rfl⟩ := Draft.insertField_ok hok
      exact ⟨rfl, rfl, rfl⟩
  | description => exact ⟨rfl, rfl, rfl⟩
  | conformance => exact ⟨rfl, rfl, rfl⟩
  | unionMember => exact ⟨rfl, rfl, rfl⟩

namespace Session

/-- A declaration keeps an open draft open, and as ready as it was. -/
theorem open_declaration {draft : Draft} (h : draft.completed = false ∧ Ready draft) (made : Declaration) :
    (next draft (.declaration made)).completed = false ∧ Ready (next draft (.declaration made)) := by
  rcases (settles_declare h.2 made).run with ⟨_, hrun, _⟩ | ⟨_, grown, hrun, hok⟩
  · have hnext : next draft (.declaration made) = draft := congrArg Prod.snd hrun
    rwa [hnext]
  · have hnext : next draft (.declaration made) = grown := congrArg Prod.snd hrun
    obtain ⟨hcompleted, hfrozen, hschema⟩ := (Declaration.change_of_ok hok).2.kept
    rw [hnext, Ready, hcompleted, hfrozen, hschema]
    exact h

theorem ready_next {draft : Draft} (h : Ready draft) (call : Call) : Ready (next draft call) := by
  cases hcompleted : draft.completed with
  | true => rwa [(closed_call hcompleted call).2]
  | false =>
      cases call with
      | declaration made => exact (open_declaration ⟨hcompleted, h⟩ made).2
      | complete =>
          obtain ⟨hclosed, _⟩ := complete_call hcompleted (h hcompleted).2
          exact fun hopen => absurd (hopen.symm.trans hclosed) Bool.false_ne_true

/-! ### Sessions -/

theorem after_cons (draft : Draft) (call : Call) (rest : List Call) :
    after draft (call :: rest) = after (next draft call) rest := rfl

theorem open_declarations {draft : Draft} (h : draft.completed = false ∧ Ready draft)
    (declarations : List Declaration) :
    (after draft (declarations.map .declaration)).completed = false ∧
      Ready (after draft (declarations.map .declaration)) := by
  induction declarations generalizing draft with
  | nil => exact h
  | cons made rest ih => exact ih (open_declaration h made)

/-- Without declarations that have failed, a session goes on in the same way and ends with the same draft. -/
theorem transcript_pruned {draft : Draft} (h : Ready draft) {calls : List Call}
    {kept : List (Call × Reply)} (hkept : Pruned (transcript draft calls) kept) :
    transcript draft (kept.map Prod.fst) = kept ∧ after draft (kept.map Prod.fst) = after draft calls := by
  induction calls generalizing draft kept with
  | nil =>
      cases hkept
      exact ⟨rfl, rfl⟩
  | cons call rest ih =>
      rw [transcript] at hkept
      generalize hreply : reply draft call = answered at hkept
      cases hkept with
      | keep _ hrest =>
          obtain ⟨hreplies, hafter⟩ := ih (ready_next h call) hrest
          rw [List.map_cons, transcript, hreplies, hreply, after_cons, after_cons, hafter]
          exact ⟨rfl, rfl⟩
      | drop made error hrest =>
          have hsame := next_of_error h hreply
          rw [hsame] at hrest
          rw [after_cons, hsame]
          exact ih h hrest

/-- After its completion a draft gives all calls the same answer. -/
theorem closed_session {draft : Draft} (h : draft.completed = true) (calls : List Call) :
    (∀ entry ∈ transcript draft calls, entry.2 = .error .alreadyCompleted) ∧ after draft calls = draft := by
  induction calls with
  | nil => exact ⟨fun _ hmem => absurd hmem List.not_mem_nil, rfl⟩
  | cons call rest ih =>
      obtain ⟨hreply, hnext⟩ := closed_call h call
      rw [transcript, after_cons, hnext, List.forall_mem_cons]
      exact ⟨⟨hreply, ih.1⟩, ih.2⟩

theorem after_append (draft : Draft) (calls more : List Call) :
    after draft (calls ++ more) = after (after draft calls) more :=
  List.foldl_append

theorem ready_start : Draft.start.completed = false ∧ Ready Draft.start :=
  ⟨rfl, fun _ => ⟨rfl, rfl⟩⟩

theorem ready_after {draft : Draft} (h : Ready draft) (calls : List Call) : Ready (after draft calls) := by
  induction calls generalizing draft with
  | nil => exact h
  | cons call rest ih => exact ih (ready_next h call)

/-- The draft of a session that is still open is that of the declarations that it has accepted. -/
theorem exists_declarations {calls : List Call} (h : (after .start calls).completed = false) :
    ∃ declarations, Draft.start.declareAll declarations = .ok (after .start calls) := by
  induction calls using List.reverseRecOn with
  | nil => exact ⟨[], rfl⟩
  | append_singleton before call ih =>
      have hready := ready_after ready_start.2 before
      rw [after_append] at h ⊢
      change (next (after .start before) call).completed = false at h
      change ∃ declarations, Draft.start.declareAll declarations = .ok (next (after .start before) call)
      cases hopen : (after .start before).completed with
      | true =>
          rw [(closed_call hopen call).2, hopen] at h
          cases h
      | false =>
          obtain ⟨declarations, hdeclared⟩ := ih hopen
          cases call with
          | complete =>
              rw [(complete_call hopen (hready hopen).2).1] at h
              cases h
          | declaration made =>
              rcases (settles_declare hready made).run with ⟨_, hrun, _⟩ | ⟨_, grown, hrun, hok⟩
              · have hnext : next (after .start before) (.declaration made) = _ := congrArg Prod.snd hrun
                exact ⟨declarations, hnext ▸ hdeclared⟩
              · have hnext : next (after .start before) (.declaration made) = grown := congrArg Prod.snd hrun
                refine ⟨declarations ++ [made], ?_⟩
                rw [Draft.declareAll, List.foldlM_append]
                change (Draft.start.declareAll declarations >>= _) = _
                rw [hdeclared, hnext]
                change (made.apply (after .start before) >>= pure) = _
                rw [hok]
                rfl

/-- A session gets a schema for its accepted declarations only. -/
theorem completed_of_reply {calls : List Call} {schema : Schema}
    (h : reply (after .start calls) .complete = .ok (.schema schema)) : schema.Completed := by
  cases hopen : (after .start calls).completed with
  | true =>
      rw [(closed_call hopen .complete).1] at h
      cases h
  | false =>
      obtain ⟨declarations, hdeclared⟩ := exists_declarations hopen
      refine ⟨declarations, _, hdeclared, ?_⟩
      rw [reply_complete] at h
      obtain ⟨_, hcomplete, hsame⟩ := Outcome.map_ok_iff.mp h
      cases hsame
      exact hcomplete

/-- Declarations that have failed leave no trace, and completion is final. Without any number of the
declarations that have failed, all other calls of a session get the same replies and leave the same draft.
All calls after the first completion are refused and change nothing, and from then on the schema is there
if and only if that completion has succeeded; before it is not. -/
theorem session_traceless (calls : List Call) :
    (∀ kept, Pruned (transcript .start calls) kept →
      transcript .start (kept.map Prod.fst) = kept ∧
        after .start (kept.map Prod.fst) = after .start calls) ∧
    ∀ (declarations : List Declaration) (later : List Call),
      calls = declarations.map .declaration ++ .complete :: later →
      (after .start (declarations.map .declaration)).isCompleted = false ∧
      (∀ entry ∈ transcript (after .start (declarations.map .declaration ++ [.complete])) later,
        entry.2 = .error .alreadyCompleted) ∧
      after .start calls = after .start (declarations.map .declaration ++ [.complete]) ∧
      (after .start calls).isCompleted =
        (reply (after .start (declarations.map .declaration)) .complete).isOk := by
  refine ⟨fun kept hkept => transcript_pruned ready_start.2 hkept, ?_⟩
  rintro declarations later rfl
  obtain ⟨hopen, hready⟩ := open_declarations ready_start declarations
  obtain ⟨hclosed, hfilled⟩ := complete_call hopen (hready hopen).2
  have hcompleted : after .start (declarations.map .declaration ++ [.complete]) =
      next (after .start (declarations.map .declaration)) .complete := after_append ..
  obtain ⟨hreplies, hafter⟩ := closed_session hclosed later
  have hend : after .start (declarations.map .declaration ++ .complete :: later) =
      next (after .start (declarations.map .declaration)) .complete := by
    rw [after_append, after_cons]
    exact hafter
  rw [hcompleted, hend]
  exact ⟨congrArg Option.isSome (hready hopen).2, hreplies, rfl, hfilled⟩

/-- A type that is declared again is refused, and so is a type after completion. The session without these
two calls gets the same replies, and the schema is there in the end. -/
theorem session_traceless_shown :
    let calls : List Call := [.declaration (.type (.ofKind .interface "Animal")),
      .declaration (.type (.ofKind .object "Animal")), .declaration (.field 7 (.plain "name" "String")), .complete,
      .declaration (.type (.ofKind .object "Dog"))]
    let kept := (transcript .start calls).filter fun entry => entry.2.isOk || entry.1 matches .complete
    (transcript .start calls).map (fun entry => entry.2.isOk) = [true, false, true, true, false] ∧
      transcript .start (kept.map Prod.fst) = kept ∧ (after .start calls).isCompleted = true := by
  intro calls kept
  have hreplies : (transcript .start calls).map (fun entry => entry.2.isOk) = [true, false, true, true, false] := by
    decide +kernel
  have hcompleted : (reply (after .start (([.type (.ofKind .interface "Animal"),
      .type (.ofKind .object "Animal"), .field 7 (.plain "name" "String")] : List Declaration).map .declaration))
        .complete).isOk = true := by
    decide +kernel
  obtain ⟨hpruned, hfinal⟩ := session_traceless calls
  obtain ⟨_, _, _, hfilled⟩ := hfinal [.type (.ofKind .interface "Animal"), .type (.ofKind .object "Animal"),
    .field 7 (.plain "name" "String")] _ rfl
  exact ⟨hreplies, (hpruned kept (pruned_filter _)).1, hfilled.trans hcompleted⟩

end Session

end GraphQuery
