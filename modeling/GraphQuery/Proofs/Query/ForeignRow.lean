import GraphQuery.Proofs.Query.BoundPlan
import GraphQuery.Proofs.Query.Projection
import GraphQuery.Proofs.Query.Row
import GraphQuery.Proofs.Query.Tier

/-! Rows of other types than the one that declares a field. Where plans may hold casts, a field of another type
is resolved on null on such rows. A tier that guards against null hides the whole plan of the field behind a
test of the shape, so that nothing of it is evaluated and the field is null. A tier that does not leaves it to
the plan what it makes of null: what is read, filtered, sorted or cut from it is null again, and what is found
without it is not. -/

namespace GraphQuery

open BoundSelection (leader)

namespace Plan

/-- The plan that a record binds under a key. -/
def slot? (key : String) : Plan → Option Plan
  | .record _ bindings => bindings.lookup key
  | _ => none

/-- The value of a plan is taken from that of another one: by its members, by casts, by keeping, ordering,
cutting or rewriting its items, behind a guard against null, or under a name. -/
inductive Stems : Plan → Plan → Prop where
  | self (origin : Plan) : Stems origin origin
  | member {origin target : Plan} (name : String) : Stems origin target → Stems origin (.member target name)
  | cast {origin target : Plan} (typeName : String) (shapes : List String) :
      Stems origin target → Stems origin (.cast target typeName shapes)
  | nullGuard {origin value : Plan} (body : Plan) (typeName : String) :
      Stems origin value → Stems origin (.nullGuard value body typeName)
  | bind {origin value body : Plan} (name : String) :
      Stems origin value → Stems (.var name) body → Stems origin (.bind name value body)
  | filter {origin source : Plan} (predicate : Plan) :
      Stems origin source → Stems origin (.filter source predicate)
  | project {origin source : Plan} (body : Plan) : Stems origin source → Stems origin (.project source body)
  | orderBy {origin source : Plan} (key : Plan) (descending : Bool) :
      Stems origin source → Stems origin (.orderBy source key descending)
  | skip {origin source : Plan} (count : Nat) : Stems origin source → Stems origin (.skip source count)
  | take {origin source : Plan} (count : Nat) : Stems origin source → Stems origin (.take source count)
  | toList {origin source : Plan} : Stems origin source → Stems origin (.toList source)
  | first {origin source : Plan} : Stems origin source → Stems origin (.first source)
  | firstOrDefault {origin source : Plan} : Stems origin source → Stems origin (.firstOrDefault source)

/-- What is taken from null is null, and nothing but the way to it is evaluated. -/
theorem Stems.evalIn_null {origin plan : Plan} (h : Stems origin plan) {source : Source} {row : Value} :
    ∀ {vars : List (String × Value)}, origin.evalIn source vars row = .ok .null →
      plan.evalIn source vars row = .ok .null := by
  induction h with
  | self => exact id
  | bind name _ _ ihvalue ihbody =>
      intro vars horigin
      have hbound : ((name, Value.null) :: vars).lookup name = some .null := List.lookup_cons_self
      rw [evalIn, ihvalue horigin]
      apply ihbody
      rw [evalIn, hbound]
  | _ =>
      rename_i ih
      intro vars horigin
      rw [evalIn, ih horigin]
      rfl

end Plan

namespace Field

variable {field : Field} {sequence : Bool} {value : Value}

/-- Does a field take the first item of the value of its plan? -/
def takesFirst (field : Field) (leaf sequence : Bool) : Bool :=
  sequence && !(if leaf then field.keepsItems else field.isList || field.resolution == .toList)

/-- Is the value of a field null for a value of its plan? Null stays null, and where a field takes the first
item there may be none. The first item may be null itself; but a record of it is not. -/
def vanishes (field : Field) (leaf sequence : Bool) : Value → Bool
  | .null => true
  | .array [] => field.takesFirst leaf sequence
  | .array (first :: _) => leaf && field.takesFirst leaf sequence && first.isNull
  | _ => false

theorem vanishes_iff_of_keeps {leaf : Bool} (h : field.takesFirst leaf sequence = false) :
    field.vanishes leaf sequence value = true ↔ value = .null := by
  cases value with
  | array items => cases items <;> simp [vanishes, h]
  | _ => simp [vanishes]

/-- A field without rows is null exactly if it vanishes. -/
theorem settle_null_iff (hvalue : sequence = true → value = .null ∨ ∃ items, value = .array items) :
    field.settle sequence value = .ok .null ↔ field.vanishes true sequence value = true := by
  cases sequence with
  | false =>
      rw [vanishes_iff_of_keeps rfl]
      exact Except.ok.injEq value .null ▸ Iff.rfl
  | true =>
      rcases hvalue rfl with rfl | ⟨items, rfl⟩
      · exact ⟨fun _ => rfl, fun _ => field.settle_null true⟩
      · rw [settle_items, Except.ok.injEq]
        cases hkeeps : field.keepsItems with
        | true =>
            have htakes : field.takesFirst true true = false := by simp [takesFirst, hkeeps]
            rw [vanishes_iff_of_keeps htakes, if_pos rfl]
        | false =>
            have htakes : field.takesFirst true true = true := by simp [takesFirst, hkeeps]
            cases items with
            | nil => simp [vanishes, htakes]
            | cons first rest => cases first <;> simp [vanishes, htakes, Value.isNull]

/-- Records of the items of a sequence are null where the sequence is. -/
theorem records_null_iff {record : Value → Except StoreError Value} :
    value.records record = .ok .null ↔ value = .null := by
  refine ⟨fun h => ?_, ?_⟩
  · rcases Value.mapSequence_ok h with ⟨hnull, _⟩ | ⟨_, _, _, _, harray⟩
    · exact hnull
    · cases harray
  · rintro rfl
    exact Value.mapSequence_null

/-- A field with rows is null exactly if it vanishes, since records are never null. -/
theorem arrange_null_iff {record : Value → Except StoreError Value}
    (hrecord : ∀ item one, record item = .ok one → one ≠ .null)
    (hvalue : sequence = true → value = .null ∨ ∃ items, value = .array items) :
    field.arrange sequence record value = .ok .null ↔ field.vanishes false sequence value = true := by
  unfold arrange
  split
  · next hlist =>
      have htakes : field.takesFirst false sequence = false := by simp [takesFirst, hlist]
      rw [vanishes_iff_of_keeps htakes, records_null_iff]
  · next hlist =>
      cases sequence with
      | false =>
          rw [vanishes_iff_of_keeps rfl, if_neg Bool.false_ne_true]
          cases value with
          | null => exact ⟨fun _ => rfl, fun _ => rfl⟩
          | _ => exact ⟨fun h => absurd rfl (hrecord _ _ h), nofun⟩
      | true =>
          have hfirst (htakes : field.takesFirst false true = true) :
              (value.records record).map Value.firstItem = .ok .null ↔
                field.vanishes false true value = true := by
            rcases hvalue rfl with rfl | ⟨_ | ⟨first, rest⟩, rfl⟩
            · exact ⟨fun _ => rfl, fun _ => rfl⟩
            · exact ⟨fun _ => htakes, fun _ => rfl⟩
            · refine ⟨fun h => ?_, nofun⟩
              obtain ⟨_, hshown, hnull⟩ := Outcome.map_ok_iff.mp h
              rcases Value.mapSequence_ok hshown with ⟨harray, _⟩ | ⟨_, records, heq, hrecords, rfl⟩
              · cases harray
              · cases heq
                cases Outcome.mapM_ok_iff.mp hrecords with
                | cons hone _ => exact absurd hnull (hrecord _ _ hone)
          cases hresolution : field.resolution with
          | toList =>
              have htakes : field.takesFirst false true = false := by simp [takesFirst, hresolution]
              rw [vanishes_iff_of_keeps htakes]
              exact records_null_iff
          | _ => exact hfirst (by simp [takesFirst, hlist, hresolution])

end Field

namespace Compiler

variable {compiler : Compiler} {owner : SchemaType} {field : Field} {source : Source}
  {vars : List (String × Value)} {row : Value}

/-- What a field makes of its plan and its children is null exactly if it vanishes for the value of the plan. -/
theorem evalIn_compose_null_iff {plan composed : Plan} {children : List BoundSelection} {depth : Nat}
    (hcomposed : (compiler.compose field plan children depth).outcome = .ok composed) :
    composed.evalIn source vars row = .ok .null ↔ ∃ value, plan.evalIn source vars row = .ok value ∧
      field.vanishes (compiler.schema.type field.target).isLeaf plan.isSequence value = true := by
  have hsequence {value : Value} (hplan : plan.evalIn source vars row = .ok value)
      (hsequence : plan.isSequence = true) : value = .null ∨ ∃ items, value = .array items :=
    Plan.evalIn_sequence hsequence hplan
  unfold compose at hcomposed
  dsimp only at hcomposed
  split at hcomposed
  · next hleaf =>
      cases hcomposed
      rw [evalIn_materialize, Outcome.bind_ok_iff, hleaf]
      refine exists_congr fun value => and_congr_right fun hplan => ?_
      exact Field.settle_null_iff (hsequence hplan)
  · next hrows =>
      obtain ⟨record, hrecord, hpure⟩ := Traced.bind_ok_iff.mp hcomposed
      cases hpure
      rw [evalIn_project, Outcome.bind_ok_iff, Bool.eq_false_iff.mpr hrows]
      refine exists_congr fun value => and_congr_right fun hplan => ?_
      refine Field.arrange_null_iff (fun item one hone => ?_) (hsequence hplan)
      obtain ⟨members, rfl⟩ := object_of_record hrecord hone
      exact nofun

/-- The plan that a record binds for a selection is that of the leader of the selection. -/
theorem slot_of_record {level : List BoundSelection} {key? : BoundSelection → Option String} {depth : Nat}
    (hkeys : compiler.schema.recordKeys owner level = .ok (level.map key?))
    (hkeying : compiler.schema.Keying level key?) {record : Plan}
    (hrecord : (compiler.record owner level depth).outcome = .ok record) {selection : BoundSelection}
    (hmem : selection ∈ level) (hkeyed : compiler.schema.keyed selection = true) :
    ∃ key slot, key? selection = some key ∧ record.slot? key = some slot ∧
      (compiler.binding owner depth (leader level selection)).outcome = .ok slot := by
  rw [record_eq hkeys] at hrecord
  obtain ⟨bound, hbound, hpure⟩ := Traced.bind_ok_iff.mp hrecord
  cases hpure
  rw [Traced.outcome_mapM] at hbound
  have hentry {selection : BoundSelection} {entry : String × Plan}
      (h : (compiler.keyedBinding owner depth key? selection).outcome = .ok entry) :
      entry.1 = (key? selection).getD "" ∧ (compiler.binding owner depth selection).outcome = .ok entry.2 := by
    obtain ⟨slot, hslot, hpure⟩ := Traced.bind_ok_iff.mp h
    cases hpure
    exact ⟨rfl, hslot⟩
  obtain ⟨hleader, hsame⟩ := hkeying.leader hmem hkeyed
  obtain ⟨_, key, hkey, _⟩ := Keyed.mem_firsts hleader
  obtain ⟨⟨name, slot⟩, hfound, hslot⟩ := Outcome.ok_of_mapM hbound hleader
  obtain ⟨hname, hbinding⟩ := hentry hslot
  rw [hkey, Option.getD_some] at hname
  subst hname
  have hown : key? selection = some name := hsame.symm.trans hkey
  refine ⟨name, slot, hown, ?_, hbinding⟩
  have hnodup : (bound.map Prod.fst).Nodup := by
    have hnames : ((Keyed.firsts key? (fun _ => false) level).map fun selection => (key? selection).getD "") =
        bound.map Prod.fst := by
      rw [← List.forall₂_eq_eq_eq, List.forall₂_map_left_iff, List.forall₂_map_right_iff]
      exact (Outcome.mapM_ok_iff.mp hbound).imp fun _ _ h => (hentry h).1.symm
    exact hnames ▸ Keyed.firsts_keys_nodup ""
  unfold recordOf Plan.slot?
  dsimp only
  split
  · have hne : name ≠ typenameKey := by
      rintro rfl
      exact hkeying.ne_typename selection hmem hown
    rw [List.lookup_cons, beq_eq_false_iff_ne.mpr hne]
    apply Keyed.lookup_of_mem
    · exact hnodup.sublist (List.filter_sublist.map Prod.fst)
    · exact List.mem_filter.mpr ⟨hfound, bne_iff_ne.mpr hne⟩
  · exact Keyed.lookup_of_mem hnodup hfound

/-- Under the name of its parent, or as the row itself, a field finds null where its row is cast in vain. -/
theorem evalIn_parentOf (depth : Nat) (parent : Value)
    (hparent : ∀ vars, (compiler.rowOf owner field).evalIn source vars row = .ok parent) :
    (parentOf field (compiler.rowOf owner field) depth).evalIn source (around vars field depth parent) row =
      .ok parent := by
  unfold parentOf around
  split
  · exact hparent vars
  · rw [Plan.evalIn, List.lookup_cons_self]

/-- The plan of a member is taken from the value that the field is resolved on. -/
theorem stems_of_isMember {plan parent : Plan} {data? : Option Value} {arguments : Arguments}
    (hmember : field.isMember = true)
    (hplan : (field.tracedPlan ⟨parent, none, data?⟩ arguments).outcome = .ok plan) : parent.Stems plan := by
  unfold Field.isMember at hmember
  split at hmember
  · next name hresolver =>
      simp only [Field.tracedPlan, Field.bringsPlan, Field.buildPlan, hresolver] at hplan
      cases hplan
      exact .member name (.self parent)
  · cases hmember

end Compiler

/-- What becomes of a field on rows of other types. Let a tier cast, and let a type be no subtype of the one
that declares a field. A record of the type then binds a slot for each selection of the field, and on every row
without a shape of the declaring type the slot comes to this. In a tier that guards, it is null, as anything
would be in the place of what the guard hides. In one that does not, the plan that the field has built finds
null for its parent, and the slot is null exactly where the field vanishes for the value of this plan. So it is
for all members, and for every plan that takes its value from the parent. -/
theorem Schema.foreign_row_null {schema : Schema} (hcompleted : schema.Completed) {tier : Tier}
    (hcasts : tier.casts = true) (data? : Option Value) {owner : TypeId} (howner : owner < schema.types.length)
    {level : List BoundSelection} (hcarries : ∀ selection ∈ level, schema.Carries owner selection) {depth : Nat}
    {record : Plan}
    (hrecord : (Compiler.record ⟨schema, tier, data?⟩ (schema.type owner) level depth).outcome = .ok record)
    {selection : BoundSelection} (hmem : selection ∈ level) (hkeyed : schema.keyed selection = true)
    (hforeign : schema.isSubtype owner (schema.field selection.field).declaring = false) :
    let compiler : Compiler := ⟨schema, tier, data?⟩
    let type := schema.type owner
    let field := schema.field selection.field
    let parent := Compiler.parentOf field (compiler.rowOf type field) depth
    ∃ key? key slot inner plan,
      schema.recordKeys type level = .ok (level.map key?) ∧ key? selection = some key ∧
      record.slot? key = some slot ∧ slot = compiler.guardPartial type field inner ∧
      (field.tracedPlan ⟨parent, none, data?⟩ (leader level selection).arguments).outcome = .ok plan ∧
      ∀ source vars row, row.hasShape (schema.type field.declaring).shapes = false →
        (tier.guardsNulls = true →
          ∀ other, (compiler.guardPartial type field other).evalIn source vars row = .ok .null) ∧
        (tier.guardsNulls = false → (slot.evalIn source vars row = .ok .null ↔
          ∃ value, plan.evalIn source (Compiler.around vars field depth .null) row = .ok value ∧
            field.vanishes (schema.type field.target).isLeaf plan.isSequence value = true)) ∧
        ((field.isMember = true ∨ parent.Stems plan) → slot.evalIn source vars row = .ok .null) := by
  intro compiler type field parent
  have hschema := hcompleted.wellFormed
  obtain ⟨key?, hkeys, hkeying⟩ := Schema.recordKeys_ok hschema hcarries
  obtain ⟨key, slot, hkey, hslot, hbinding⟩ := Compiler.slot_of_record hkeys hkeying hrecord hmem hkeyed
  have hfield : (leader level selection).field = selection.field :=
    (BoundSelection.alike_iff.mp (BoundSelection.leader_alike hmem)).1
  unfold Compiler.binding at hbinding
  rw [hfield] at hbinding
  obtain ⟨plan, hplan, hbinding⟩ := Traced.bind_ok_iff.mp hbinding
  obtain ⟨composed, hcomposed, hpure⟩ := Traced.bind_ok_iff.mp hbinding
  cases hpure
  refine ⟨key?, key, _, _, plan, hkeys, hkey, hslot, rfl, hplan, fun source vars row hshape => ?_⟩
  have hlacks : compiler.lacks row type field = true := by
    rw [Compiler.lacks, Compiler.isPartial, hschema.id_of_lt howner]
    show (!schema.isSubtype owner field.declaring && _) = true
    rw [hforeign, hshape]
    rfl
  have hbase (vars : List (String × Value)) :
      (compiler.rowOf type field).evalIn source vars row = .ok .null := by
    rw [Compiler.evalIn_rowOf, Compiler.parentValue, hlacks, show compiler.tier.casts = true from hcasts]
    rfl
  have hguarded (hguards : tier.guardsNulls = true) (other : Plan) :
      (compiler.guardPartial type field other).evalIn source vars row = .ok .null := by
    rw [Compiler.evalIn_guardPartial_eq, hlacks, show compiler.tier.casts = true from hcasts,
      show compiler.tier.guardsNulls = true from hguards]
    rfl
  have hopen (hguards : tier.guardsNulls = false) :
      (compiler.guardPartial type field
          (Compiler.bindParent field (compiler.rowOf type field) depth composed)).evalIn source vars row =
        composed.evalIn source (Compiler.around vars field depth .null) row := by
    rw [Compiler.evalIn_guardPartial_eq, show compiler.tier.guardsNulls = false from hguards, Bool.and_false,
      Bool.false_and, if_neg Bool.false_ne_true, Compiler.evalIn_bindParent, Compiler.parentValue, hlacks,
      show compiler.tier.casts = true from hcasts]
    rfl
  refine ⟨hguarded, fun hguards => ?_, fun htaken => ?_⟩
  · rw [hopen hguards]
    exact Compiler.evalIn_compose_null_iff hcomposed
  · have hstems : parent.Stems plan := htaken.elim (fun hmember => Compiler.stems_of_isMember hmember hplan) id
    cases hguards : tier.guardsNulls with
    | true => exact hguarded hguards _
    | false =>
        rw [hopen hguards]
        apply Compiler.evalIn_compose_null hcomposed
        exact hstems.evalIn_null (Compiler.evalIn_parentOf depth .null hbase)

/-- Does a plan filter a member of a variable? -/
def Plan.filtersMemberOf (name : String) : Plan → Bool
  | .filter (.member (.var other) _) _ => other == name
  | _ => false

theorem Plan.stems_of_filtersMemberOf {name : String} {plan : Plan} (h : plan.filtersMemberOf name = true) :
    (Plan.var name).Stems plan := by
  unfold filtersMemberOf at h
  split at h
  · cases beq_iff_eq.mp h
    exact .filter _ (.member _ (.self _))
  · cases h

/-- An animal of a meadow that is not known to be a dog has no gear, though it carries some. -/
theorem Schema.meadow_gear_null :
    let level := meadowLevel [.field none "gear" [] [.field none "label" [] []]]
    let stray : Value := .ofEntries [("gear", .array [.ofEntries [("label", .string "Bell")]])]
    ∃ record slot, (Compiler.record ⟨.meadow, .default, none⟩ (meadow.type 7) level 1).outcome = .ok record ∧
      record.slot? "gear" = some slot ∧ slot.evalIn .meadow [] stray = .ok .null := by
  intro level stray
  have hlevel : (∀ selection ∈ level, (meadow.field selection.field).id = selection.field ∧
        ((meadow.type 7).projection.slotFor? selection.field).isSome = true) ∧
      (meadow.recordKeys (meadow.type 7) level).toOption = some [some "gear"] ∧
      (Compiler.record ⟨.meadow, .default, none⟩ (meadow.type 7) level 1).outcome.isOk = true := by
    decide +kernel
  have hselection : ∃ selection ∈ level, let field := meadow.field selection.field
      meadow.keyed selection = true ∧ meadow.isSubtype 7 field.declaring = false ∧
      stray.hasShape (meadow.type field.declaring).shapes = false ∧ Compiler.seesRow field = false ∧
      (field.tracedPlan ⟨.var (Compiler.parentName 1), none, none⟩
        (leader level selection).arguments).outcome.toOption.map
          (Plan.filtersMemberOf (Compiler.parentName 1)) = some true := by
    decide +kernel
  obtain ⟨hcarries, hgear, hok⟩ := hlevel
  obtain ⟨selection, hmem, hkeyed, hforeign, hshape, hnamed, htaken⟩ := hselection
  obtain ⟨record, hrecord⟩ := Outcome.exists_of_isOk hok
  obtain ⟨key?, key, slot, _, plan, hkeys, hkey, hslot, _, hplan, hnull⟩ :=
    foreign_row_null meadow_completed rfl none (by decide +kernel)
      (fun other hother => ⟨(hcarries other hother).1, Or.inr (Or.inr (hcarries other hother).2)⟩)
      hrecord hmem hkeyed hforeign
  have hname : key = "gear" := by
    have hmapped : level.map key? = [some "gear"] :=
      Except.ok.inj (hkeys.symm.trans (Outcome.ok_of_toOption hgear))
    have hin : some key ∈ level.map key? := List.mem_map.mpr ⟨selection, hmem, hkey⟩
    rw [hmapped, List.mem_singleton] at hin
    exact Option.some.inj hin
  subst hname
  refine ⟨record, slot, hrecord, hslot, (hnull .meadow [] stray hshape).2.2 (Or.inr ?_)⟩
  have hparent (base : Plan) : Compiler.parentOf (meadow.field selection.field) base 1 =
      .var (Compiler.parentName 1) := by
    rw [Compiler.parentOf, hnamed]
    rfl
  rw [hparent] at hplan ⊢
  rw [hplan] at htaken
  exact Plan.stems_of_filtersMemberOf (Option.some.inj htaken)

/-- The walkers of a meadow are found without the dog that asks for them. So a row without a shape has them
where null is not guarded against, and has none where it is. -/
theorem Schema.meadow_walkers_for_all :
    let level := meadowLevel [.field none "walkers" [] [.field none "name" [] []]]
    let stray : Value := .ofEntries [("id", .number (.int 2))]
    let shown (tier : Tier) : Option Value := do
      let record ← (Compiler.record ⟨.meadow, tier, none⟩ (meadow.type 7) level 1).outcome.toOption
      let slot ← record.slot? "walkers"
      (slot.evalIn .meadow [] stray).toOption
    (∃ selection ∈ level, let field := meadow.field selection.field
      meadow.isSubtype 7 field.declaring = false ∧ field.isPost = false ∧
        stray.hasShape (meadow.type field.declaring).shapes = false) ∧
      (shown .default == some (.array [.ofEntries [("name", .string "Ann")]])) = true ∧
      (shown .enumerable == some .null) = true := by
  decide +kernel

end GraphQuery
