import GraphQuery.Proofs.Query.RowScope

/-! Names bound around the plan of a field. What a field does with its plan goes by the outermost node of the
plan, and a binding is no sequence, whatever stands inside. So a field that takes the first item of a sequence,
or the records of its items, takes all of it for one value where a name is bound around it. -/

namespace GraphQuery

open Plan (Free)
open Traced (Related)

namespace Plan

/-- A sequence is null or an array. -/
theorem evalIn_sequence {plan : Plan} (hsequence : plan.isSequence = true) {source : Source}
    {vars : List (String × Value)} {row value : Value} (h : plan.evalIn source vars row = .ok value) :
    value = .null ∨ ∃ items, value = .array items := by
  have hmapped {operation : String} {step : List Value → Except StoreError (List Value)}
      {outcome : Except StoreError Value}
      (h : outcome >>= (fun found => found.mapSequence operation step) = .ok value) :
      value = .null ∨ ∃ items, value = .array items := by
    obtain ⟨_, _, hstep⟩ := Outcome.bind_ok_iff.mp h
    rcases Value.mapSequence_ok hstep with ⟨_, rfl⟩ | ⟨_, items, _, _, rfl⟩
    · exact Or.inl rfl
    · exact Or.inr ⟨items, rfl⟩
  cases plan with
  | collection name =>
      rw [evalIn, Outcome.map_ok_iff] at h
      obtain ⟨items, _, rfl⟩ := h
      exact Or.inr ⟨items, rfl⟩
  | filter | project | orderBy | skip | take | toList =>
      rw [evalIn] at h
      exact hmapped h
  | _ => cases hsequence

/-- Whatever is done with the value of a sequence under a name, it matters for arrays only. -/
theorem evalIn_bind_sequence_iff {name : String} {value plan : Plan} (hsequence : plan.isSequence = true)
    {source : Source} {vars : List (String × Value)} {row : Value}
    {finish other : Value → Except StoreError Value} (hnull : finish .null = other .null) :
    (Plan.bind name value plan).evalIn source vars row >>= finish =
        (Plan.bind name value plan).evalIn source vars row >>= other ↔
      ∀ items, (Plan.bind name value plan).evalIn source vars row = .ok (.array items) →
        finish (.array items) = other (.array items) := by
  rw [Outcome.bind_eq_bind_iff]
  refine ⟨fun h items => h (.array items), fun h result hresult => ?_⟩
  have hbound := hresult
  rw [evalIn] at hbound
  obtain ⟨_, _, hplan⟩ := Outcome.bind_ok_iff.mp hbound
  rcases evalIn_sequence hsequence hplan with rfl | ⟨items, rfl⟩
  · exact hnull
  · exact h items hresult

end Plan

namespace Field

/-- Does a field without rows keep all items of a sequence? -/
def keepsItems (field : Field) : Bool :=
  field.resolution == .toList || field.resolution == .unmodified && field.isList

theorem settle_items (field : Field) (items : List Value) : field.settle true (.array items) =
    .ok (if field.keepsItems then .array items else items.head?.getD .null) := by
  unfold settle keepsItems
  cases field.resolution <;> cases field.isList <;> rfl

/-- An array is never its own first item. -/
theorem settle_array_iff {field : Field} {items : List Value} :
    field.settle false (.array items) = field.settle true (.array items) ↔ field.keepsItems = true := by
  show (Except.ok (.array items) : Except StoreError Value) = _ ↔ _
  rw [settle_items, Except.ok.injEq]
  cases field.keepsItems with
  | true => exact ⟨fun _ => rfl, fun _ => rfl⟩
  | false =>
      refine ⟨fun hself => ?_, nofun⟩
      cases items with
      | nil => cases hself
      | cons first rest =>
          have hsize := congrArg sizeOf (show Value.array (first :: rest) = first from hself)
          simp only [Value.array.sizeOf_spec, List.cons.sizeOf_spec] at hsize
          omega

/-- An array is a list for a field of a list, and for any other one a row, unless it is taken for a sequence. -/
theorem arrange_array_iff {field : Field} {record : Value → Except StoreError Value} {items : List Value} :
    field.arrange false record (.array items) = field.arrange true record (.array items) ↔
      field.isList = true ∨ record (.array items) = field.arrange true record (.array items) := by
  cases hlist : field.isList with
  | true =>
      have hsame : field.arrange false record = field.arrange true record := by
        funext value
        rw [arrange, arrange, if_pos hlist, if_pos hlist]
      rw [hsame]
      exact ⟨fun _ => Or.inl rfl, fun _ => rfl⟩
  | false =>
      have hrow : field.arrange false record (.array items) = record (.array items) := by
        rw [arrange, hlist]
        rfl
      rw [hrow]
      exact ⟨Or.inr, fun h => h.resolve_left Bool.false_ne_true⟩

end Field

namespace Compiler

variable (compiler : Compiler) (field : Field) (children : List BoundSelection) (depth : Nat) (source : Source)
  (vars : List (String × Value))

/-- Does a field make the same of an array when it takes it for a sequence and when it does not? One without
rows has to keep all items. One with rows has to be a list, or its record of the array, which has no members,
has to be what it makes of the records of the items. -/
def Indifferent (items : List Value) : Prop :=
  if (compiler.schema.type field.target).isLeaf then field.keepsItems = true
  else field.isList = true ∨
    ∀ record, (compiler.record (compiler.schema.type field.target) children depth).outcome = .ok record →
      record.evalIn source vars (.array items) =
        field.arrange true (fun item => record.evalIn source vars item) (.array items)

/-- A name around the plan of a field changes nothing but what is in scope, exactly if the plan is no sequence,
or has no array for a value, or has one of which the field makes the same either way. With the name around the
plan and around what the field makes of it, the same calls are made, and compiling fails alike. -/
theorem compose_bind_iff (name : String) (value plan : Plan)
    (hunused : ∀ record,
      (compiler.record (compiler.schema.type field.target) children depth).outcome = .ok record →
        ¬ Free name record) (row : Value) :
    Related (fun outer inner =>
        outer.evalIn source vars row = (Plan.bind name value inner).evalIn source vars row ↔
          (plan.isSequence = true → ∀ items,
            (Plan.bind name value plan).evalIn source vars row = .ok (.array items) →
              compiler.Indifferent field children depth source vars items))
      (compiler.compose field (.bind name value plan) children depth)
      (compiler.compose field plan children depth) := by
  -- both are what is done with the value of the plan under the name, once by a plan that is no sequence
  have hinside {inner : Plan} {finish : Value → Except StoreError Value}
      (hinner : ∀ found, inner.evalIn source ((name, found) :: vars) row =
        plan.evalIn source ((name, found) :: vars) row >>= finish) :
      (Plan.bind name value inner).evalIn source vars row =
        (Plan.bind name value plan).evalIn source vars row >>= finish := by
    rw [Plan.evalIn, Plan.evalIn, bind_assoc]
    exact congrArg (_ >>= ·) (funext hinner)
  unfold compose
  dsimp only
  split
  · next hleaf =>
      refine .pure ?_
      rw [evalIn_materialize, hinside fun found => evalIn_materialize source _ row field plan]
      change _ >>= field.settle false = _ ↔ _
      cases hsequence : plan.isSequence with
      | false => exact ⟨fun _ h => absurd h Bool.false_ne_true, fun _ => rfl⟩
      | true =>
          have hnull : field.settle false .null = field.settle true .null := by
            rw [Field.settle_null, Field.settle_null]
          rw [Plan.evalIn_bind_sequence_iff hsequence hnull]
          simp only [Field.settle_array_iff, Indifferent, hleaf, if_true, forall_const]
  · next hrows =>
      refine (Related.self fun record hrecord => hrecord).bind ?_
      rintro record _ hrecord _ ⟨rfl, _⟩
      have hproject (found : Value) :
          (compiler.project field plan record).evalIn source ((name, found) :: vars) row =
          plan.evalIn source ((name, found) :: vars) row >>=
            field.arrange plan.isSequence fun item => record.evalIn source vars item := by
        rw [evalIn_project, funext (Plan.evalIn_cons (hunused record hrecord) found vars)]
      refine .pure ?_
      rw [evalIn_project, hinside hproject]
      change _ >>= field.arrange false _ = _ ↔ _
      cases hsequence : plan.isSequence with
      | false => exact ⟨fun _ h => absurd h Bool.false_ne_true, fun _ => rfl⟩
      | true =>
          have hnull : field.arrange false (fun item => record.evalIn source vars item) .null =
              field.arrange true (fun item => record.evalIn source vars item) .null := by
            rw [Field.arrange_null, Field.arrange_null]
          rw [Plan.evalIn_bind_sequence_iff hsequence hnull]
          simp only [Field.arrange_array_iff, Indifferent, hrows, if_false, hrecord, Except.ok.injEq,
            forall_eq', forall_const, Bool.false_eq_true]

end Compiler

/-- The toys that a variable owns. -/
def Plan.ownedToys : Plan :=
  .filter (.collection "toys") (.compare .eq (.member .row "owner") (.member (.var "dog") "id"))

/-- A list takes the toys of a dog for a list whatever name is bound around them. -/
theorem Compiler.meadow_toys_bound :
    let compiler : Compiler := ⟨.meadow, .default, none⟩
    let dog : Value := .ofEntries [("__shape", .string "Dog"), ("id", .number (.int 2))]
    ∃ selection ∈ Schema.meadowLevel [.field none "toys" [] [.field none "label" [] []]],
      let field := Schema.meadow.field selection.field
      (∀ record, (compiler.record (Schema.meadow.type field.target) selection.children 2).outcome = .ok record →
        ¬ Free "dog" record) ∧
      Related (fun outer inner =>
          outer.evalIn .meadow [] dog = (Plan.bind "dog" .row inner).evalIn .meadow [] dog)
        (compiler.compose field (.bind "dog" .row .ownedToys) selection.children 2)
        (compiler.compose field .ownedToys selection.children 2) := by
  intro compiler dog
  have hconcrete : ∃ selection ∈ Schema.meadowLevel [.field none "toys" [] [.field none "label" [] []]],
      let field := Schema.meadow.field selection.field
      (compiler.record (Schema.meadow.type field.target) selection.children 2).outcome.toOption.map
          (fun record => record.any (Plan.bears "dog")) = some false ∧
        (Schema.meadow.type field.target).isLeaf = false ∧ field.isList = true := by
    decide +kernel
  obtain ⟨selection, hmem, hbears, hrows, hlist⟩ := hconcrete
  have hunused : ∀ record, (compiler.record (Schema.meadow.type (Schema.meadow.field selection.field).target)
      selection.children 2).outcome = .ok record → ¬ Free "dog" record := by
    intro record hrecord hfree
    rw [hrecord] at hbears
    have hnone : record.any (Plan.bears "dog") = false := Option.some.inj hbears
    rw [Plan.any_bears_of_free hfree] at hnone
    cases hnone
  refine ⟨selection, hmem, hunused, ?_⟩
  refine (compose_bind_iff compiler _ _ 2 .meadow [] "dog" .row .ownedToys hunused dog).mono fun _ _ hsame => ?_
  refine hsame.mpr fun _ _ _ => ?_
  rw [Indifferent, if_neg (Bool.eq_false_iff.mp hrows)]
  exact Or.inl hlist

/-- The best toy of a dog is the first of its toys. With a name bound around its plan the field takes all the
toys for one, of which it finds no label. -/
theorem Compiler.meadow_best_hidden :
    let compiler : Compiler := ⟨.meadow, .default, none⟩
    let dog : Value := .ofEntries [("__shape", .string "Dog"), ("id", .number (.int 2))]
    ∃ selection ∈ Schema.meadowLevel [.field none "best" [] [.field none "label" [] []]],
      let field := Schema.meadow.field selection.field
      let compose (plan : Plan) := (compiler.compose field plan selection.children 2).outcome.toOption
      let shown (plan : Plan) := (plan.evalIn .meadow [] dog).toOption
      (compiler.record (Schema.meadow.type field.target) selection.children 2).outcome.toOption.map
          (fun record => record.any (Plan.bears "dog")) = some false ∧
        ((compose (.bind "dog" .row .ownedToys)).bind shown == some (.ofEntries [("label", .null)])) = true ∧
        ((compose .ownedToys).bind (fun inner => shown (.bind "dog" .row inner)) ==
          some (.ofEntries [("label", .string "Ball")])) = true := by
  decide +kernel

end GraphQuery
