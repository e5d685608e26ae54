import GraphQuery.Proofs.Query.Alias
import GraphQuery.Proofs.Query.Arrangement
import GraphQuery.Proofs.Query.Record

/-! Records under new aliases. The selections of a type take the same slots, the first one of a field the
bare key and each other one the key with its response key added, whatever that key is. Plans compiled with
old and with new aliases therefore differ in added keys alone: they fail alike, or their records hold the
same values, and records of nested selections in the same way, under keys that correspond. -/

namespace GraphQuery

/-! ### Keys that correspond -/

/-- A key and the one that stands for it under new aliases: a base alone, or with a response key added. -/
inductive KeyPair (rename : String → String) (base : String) : String → String → Prop where
  | bare : KeyPair rename base base base
  | added (output : String) :
      KeyPair rename base (base ++ "#" ++ output) (base ++ "#" ++ rename output)

namespace KeyPair

variable {rename : String → String} {base base' key key' other other' : String}

theorem right_unique (hmark : '#' ∉ base.toList) (hmark' : '#' ∉ base'.toList)
    (h : KeyPair rename base key other) (h' : KeyPair rename base' key other') :
    base = base' ∧ other = other' := by
  have hhash : "#".toList = ['#'] := rfl
  generalize hkey : key = found at h'
  cases h with
  | bare =>
      cases h' with
      | bare => exact ⟨hkey, hkey⟩
      | added output => exact absurd hkey (Text.ne_separated hhash hmark _ _)
  | added output =>
      cases h' with
      | bare => exact absurd hkey.symm (Text.ne_separated hhash hmark' _ _)
      | added output' =>
          obtain ⟨rfl, rfl⟩ := Text.separated_inj hhash hmark hmark' hkey
          exact ⟨rfl, rfl⟩

theorem left_unique (hrename : Function.Injective rename) (hmark : '#' ∉ base.toList)
    (hmark' : '#' ∉ base'.toList) (h : KeyPair rename base key other)
    (h' : KeyPair rename base' key' other) : key = key' := by
  have hhash : "#".toList = ['#'] := rfl
  generalize hother : other = found at h'
  cases h with
  | bare =>
      cases h' with
      | bare => exact hother
      | added output => exact absurd hother (Text.ne_separated hhash hmark _ _)
  | added output =>
      cases h' with
      | bare => exact absurd hother.symm (Text.ne_separated hhash hmark' _ _)
      | added output' =>
          obtain ⟨rfl, houtput⟩ := Text.separated_inj hhash hmark hmark' hother
          rw [hrename houtput]

/-- Where no two response keys get one name, keys and those that stand for them determine each other. -/
theorem biUnique (hrename : Function.Injective rename) : Relator.BiUnique fun key other =>
    ∃ base : String, '#' ∉ base.toList ∧ KeyPair rename base key other := by
  constructor
  · rintro key other key' ⟨base, hmark, h⟩ ⟨base', hmark', h'⟩
    exact left_unique hrename hmark hmark' h h'
  · rintro key other other' ⟨base, hmark, h⟩ ⟨base', hmark', h'⟩
    exact (right_unique hmark hmark' h h').2

theorem typename : ∃ base : String, '#' ∉ base.toList ∧ KeyPair rename base typenameKey typenameKey :=
  ⟨typenameKey, by decide, .bare⟩

end KeyPair

section

variable (schema : Schema) (rename : String → String)

/-- Values of a type, of which one holds under old aliases what the other one holds under new ones: the
same value of a leaf type, and else null, lists of such values, or records that name the same type of their
rows and hold such values in their slots. -/
inductive Schema.Rerecorded : TypeId → Value → Value → Prop where
  | flat {type : TypeId} (value : Value) (hleaf : (schema.type type).isLeaf = true) :
      Rerecorded type value value
  | null {type : TypeId} (hcomposite : (schema.type type).isLeaf = false) : Rerecorded type .null .null
  | list {type : TypeId} {values others : List Value} (hcomposite : (schema.type type).isLeaf = false)
      (hlength : values.length = others.length)
      (heach : ∀ value other, (value, other) ∈ values.zip others → Rerecorded type value other) :
      Rerecorded type (.array values) (.array others)
  | record {type : TypeId} {members others : Members} (hcomposite : (schema.type type).isLeaf = false)
      (htypename : Members.get? typenameKey members = Members.get? typenameKey others)
      (hpresent : ∀ slot ∈ (schema.type type).projection.slots,
        (schema.field slot.field).isTypename = false → ∀ key key', KeyPair rename slot.key key key' →
          (Members.get? key members).isSome = (Members.get? key' others).isSome)
      (hslots : ∀ slot ∈ (schema.type type).projection.slots,
        (schema.field slot.field).isTypename = false → ∀ key key', KeyPair rename slot.key key key' →
          ∀ value other, Members.get? key members = some value → Members.get? key' others = some other →
            Rerecorded (schema.field slot.field).target value other) :
      Rerecorded type (.object members) (.object others)

/-- The keys that a level has in the records of a type with old and with new aliases. -/
inductive Schema.Rekeyed (type : SchemaType) :
    List BoundSelection → List (Option String) → List (Option String) → Prop where
  | nil : Rekeyed type [] [] []
  | unkeyed {selection : BoundSelection} {rest : List BoundSelection} {keys others : List (Option String)}
      (hrest : Rekeyed type rest keys others) :
      Rekeyed type (selection :: rest) (none :: keys) (none :: others)
  | keyed {selection : BoundSelection} {rest : List BoundSelection} {keys others : List (Option String)}
      {slot : Slot} {key other : String} (hslot : slot ∈ type.projection.slots)
      (hfield : schema.field slot.field = schema.field selection.field)
      (hplain : (schema.field slot.field).isTypename = false) (hpair : KeyPair rename slot.key key other)
      (hrest : Rekeyed type rest keys others) :
      Rekeyed type (selection :: rest) (some key :: keys) (some other :: others)

end

namespace Claim

theorem recordKey_eq (claimed : List Claim) (slot : Slot) (output : String) :
    Schema.recordKey claimed slot output =
      ((claimed.find? fun claim => claim.1 == slot.field && claim.2.1 == output).map
        fun claim => claim.2.2).getD
          (if claimed.any fun claim => claim.1 == slot.field then slot.key ++ "#" ++ output
            else slot.key) := by
  have hsame : (fun claim : Claim => claim.1 == slot.field && claim.2.1 == output) =
      fun (field, name, _) => field == slot.field && name == output := rfl
  unfold Schema.recordKey
  rw [hsame]
  cases claimed.find? fun (field, name, _) => field == slot.field && name == output <;> rfl

variable (rename : String → String) (projection : Projection)

/-- Keys that are taken under old and under new aliases. -/
structure Renamed (claim other : Claim) : Prop where
  field : other.1 = claim.1
  output : other.2.1 = rename claim.2.1
  pair : ∀ slot, projection.slotFor? claim.1 = some slot → KeyPair rename slot.key claim.2.2 other.2.2

variable {rename projection} (hrename : Function.Injective rename)

include hrename

/-- A selection takes keys that correspond after others that do. -/
theorem recordKey_renamed {claimed others : List Claim}
    (h : List.Forall₂ (Renamed rename projection) claimed others) {slot : Slot}
    (hslot : projection.slotFor? slot.field = some slot) (output : String) :
    KeyPair rename slot.key (Schema.recordKey claimed slot output)
      (Schema.recordKey others slot (rename output)) := by
  have hsame (claim other : Claim) (hpair : Renamed rename projection claim other) :
      (other.1 == slot.field && other.2.1 == rename output) =
        (claim.1 == slot.field && claim.2.1 == output) := by
    rw [hpair.field, hpair.output, Bool.eq_iff_iff]
    simp only [Bool.and_eq_true, beq_iff_eq, hrename.eq_iff]
  have hfound := Keyed.find?_related hsame h
  have hany : others.any (fun other => other.1 == slot.field) =
      claimed.any fun claim => claim.1 == slot.field := by
    clear hfound
    induction h with
    | nil => rfl
    | cons hpair _ ih => rw [List.any_cons, List.any_cons, hpair.field, ih]
  rw [recordKey_eq, recordKey_eq, hany]
  generalize hfirst : claimed.find? _ = first? at hfound ⊢
  generalize others.find? _ = second? at hfound ⊢
  cases hfound with
  | none =>
      dsimp only [Option.map, Option.getD]
      split
      · exact .added output
      · exact .bare
  | some hpair =>
      refine hpair.pair slot ?_
      have htest := List.find?_some hfirst
      rw [Bool.and_eq_true, beq_iff_eq] at htest
      rw [htest.1]
      exact hslot

end Claim

/-- A level takes keys that correspond after others that do. -/
theorem Schema.recordKeysFrom_realias {schema : Schema} (hschema : schema.WellFormed)
    {rename : String → String} (hrename : Function.Injective rename) (type : SchemaType)
    (level : List BoundSelection) : ∀ {claimed others : List Claim},
      List.Forall₂ (Claim.Renamed rename type.projection) claimed others →
      Outcome.Agree (schema.Rekeyed rename type level) (schema.recordKeysFrom type claimed level)
        (schema.recordKeysFrom type others (level.map (BoundSelection.realias rename))) := by
  induction level with
  | nil => exact fun _ => .ok .nil
  | cons selection rest ih =>
      intro claimed others h
      rw [List.map_cons, recordKeysFrom, recordKeysFrom, BoundSelection.field_realias,
        BoundSelection.outputName_realias]
      dsimp only
      split
      · exact (ih h).map fun _ _ => .unkeyed
      · next hcarried =>
          cases hslot : type.projection.slotFor? (schema.field selection.field).id with
          | none => exact .error _
          | some slot =>
              have hmem := List.mem_of_find?_eq_some hslot
              have hsame := List.find?_some hslot
              have hfield : slot.field = (schema.field selection.field).id := beq_iff_eq.mp hsame
              rw [Bool.or_eq_true, not_or] at hcarried
              have hplain := eq_false_of_ne_true hcarried.1
              have hplace : schema.field slot.field = schema.field selection.field := by
                rw [hfield, hschema.field_at hplain]
              have hown : type.projection.slotFor? slot.field = some slot := by
                rw [hfield, hslot]
              have hpair := Claim.recordKey_renamed hrename h hown selection.outputName
              have hclaim : Claim.Renamed rename type.projection
                  ((schema.field selection.field).id, selection.outputName,
                    recordKey claimed slot selection.outputName)
                  ((schema.field selection.field).id, rename selection.outputName,
                    recordKey others slot (rename selection.outputName)) := by
                refine ⟨rfl, rfl, fun other hother => ?_⟩
                rw [hslot, Option.some.injEq] at hother
                rw [← hother]
                exact hpair
              exact (ih (List.rel_append h (.cons hclaim .nil))).map fun _ _ hkeys =>
                Rekeyed.keyed hmem hplace (hplace ▸ hplain) hpair hkeys

theorem Schema.recordKeys_realias {schema : Schema} (hschema : schema.WellFormed)
    {rename : String → String} (hrename : Function.Injective rename) (type : SchemaType)
    (level : List BoundSelection) : Traced.Related (schema.Rekeyed rename type level)
      (Traced.ofExcept (schema.recordKeys type level))
      (Traced.ofExcept (schema.recordKeys type (level.map (BoundSelection.realias rename)))) :=
  ⟨recordKeysFrom_realias hschema hrename type level .nil, rfl⟩

/-! ### Plans -/

/-- Plans for values of a type with old and with new aliases: a store sends back both or neither for their
casts, and wherever they are evaluated they fail alike or have values that correspond. -/
structure Schema.Replanned (schema : Schema) (rename : String → String) (type : TypeId)
    (plan other : Plan) : Prop where
  casts : plan.any Plan.isCast = other.any Plan.isCast
  values : ∀ source vars row, Outcome.Agree (schema.Rerecorded rename type)
    (plan.evalIn source vars row) (other.evalIn source vars row)

namespace Schema

variable {schema : Schema} {rename : String → String} {type : TypeId}

theorem Rerecorded.null_of_any : schema.Rerecorded rename type .null .null := by
  cases hleaf : (schema.type type).isLeaf with
  | true => exact .flat .null hleaf
  | false => exact .null hleaf

theorem Rerecorded.eq_of_leaf {value other : Value} (h : schema.Rerecorded rename type value other)
    (hleaf : (schema.type type).isLeaf = true) : value = other := by
  cases h with
  | flat => rfl
  | null => rfl
  | list hcomposite =>
      rw [hleaf] at hcomposite
      cases hcomposite
  | record hcomposite =>
      rw [hleaf] at hcomposite
      cases hcomposite

theorem Rerecorded.get?_typename {members others : Members}
    (h : schema.Rerecorded rename type (.object members) (.object others)) :
    Members.get? typenameKey members = Members.get? typenameKey others := by
  cases h with
  | flat => rfl
  | record _ htypename => exact htypename

theorem Rerecorded.get? (hcomposite : (schema.type type).isLeaf = false) {members others : Members}
    (h : schema.Rerecorded rename type (.object members) (.object others)) {slot : Slot}
    (hslot : slot ∈ (schema.type type).projection.slots)
    (hplain : (schema.field slot.field).isTypename = false) {key key' : String}
    (hpair : KeyPair rename slot.key key key') :
    Option.Rel (schema.Rerecorded rename (schema.field slot.field).target) (Members.get? key members)
      (Members.get? key' others) := by
  cases h with
  | flat _ hleaf =>
      rw [hcomposite] at hleaf
      cases hleaf
  | record _ _ hpresent hslots =>
      have hsome := hpresent slot hslot hplain key key' hpair
      cases hvalue : Members.get? key members with
      | none =>
          cases hother : Members.get? key' others with
          | none => exact .none
          | some other =>
              rw [hvalue, hother] at hsome
              cases hsome
      | some value =>
          cases hother : Members.get? key' others with
          | none =>
              rw [hvalue, hother] at hsome
              cases hsome
          | some other => exact .some (hslots slot hslot hplain key key' hpair value other hvalue hother)

theorem Rerecorded.array (hcomposite : (schema.type type).isLeaf = false) {values others : List Value}
    (h : List.Forall₂ (schema.Rerecorded rename type) values others) :
    schema.Rerecorded rename type (.array values) (.array others) :=
  .list hcomposite h.length_eq fun _ _ hmem => List.forall₂_iff_zip.mp h |>.2 hmem

theorem Replanned.alike {plan other : Plan} (h : schema.Replanned rename type plan other) :
    plan.Alike (schema.Rerecorded rename type) other :=
  ⟨h.casts, h.values⟩

theorem Replanned.of_alike {plan other : Plan} (h : plan.Alike (schema.Rerecorded rename type) other) :
    schema.Replanned rename type plan other :=
  ⟨h.casts, h.values⟩

theorem Replanned.refl (hleaf : (schema.type type).isLeaf = true) (plan : Plan) :
    schema.Replanned rename type plan plan :=
  .of_alike (Plan.Alike.self (fun value => .flat value hleaf) plan)

end Schema

namespace Compiler

open Traced (Related)

variable {compiler : Compiler} {rename : String → String} {type : TypeId} {field : Field}
  {plan one other : Plan}

theorem placed_replanned {owner : SchemaType} {base : Plan} {depth : Nat}
    (h : compiler.schema.Replanned rename type one other) :
    compiler.schema.Replanned rename type (compiler.guardPartial owner field (bindParent field base depth one))
      (compiler.guardPartial owner field (bindParent field base depth other)) :=
  .of_alike (guardPartial_alike .null_of_any (bindParent_alike h.alike))

theorem project_replanned (hcomposite : (compiler.schema.type type).isLeaf = false)
    (h : compiler.schema.Replanned rename type one other) :
    compiler.schema.Replanned rename type (compiler.project field plan one)
      (compiler.project field plan other) :=
  .of_alike (project_alike .null_of_any (fun _ _ => .array hcomposite) h.alike)

/-! ### Records -/

/-- Bindings under keys that correspond, to plans for what the slots of these keys hold. -/
abbrev Rebound (schema : Schema) (rename : String → String) (type : TypeId) :
    List (String × Plan) → List (String × Plan) → Prop :=
  List.Forall₂ fun one other => ∃ slot ∈ (schema.type type).projection.slots,
    (schema.field slot.field).isTypename = false ∧ KeyPair rename slot.key one.1 other.1 ∧
      schema.Replanned rename (schema.field slot.field).target one.2 other.2

/-- Values of entries with keys that correspond: those of the slot of the keys, or the name of the type. -/
def HeldAlike (schema : Schema) (rename : String → String) (type : TypeId) (key other : String)
    (value value' : Value) : Prop :=
  (key = typenameKey → value = value') ∧ ∀ slot ∈ (schema.type type).projection.slots,
    (schema.field slot.field).isTypename = false → KeyPair rename slot.key key other →
      schema.Rerecorded rename (schema.field slot.field).target value value'

/-- Entries that correspond. -/
abbrev Reentered (schema : Schema) (rename : String → String) (type : TypeId) :
    List (String × Value) → List (String × Value) → Prop :=
  List.Forall₂ fun one other => (∃ base : String, '#' ∉ base.toList ∧ KeyPair rename base one.1 other.1) ∧
    HeldAlike schema rename type one.1 other.1 one.2 other.2

section

variable {schema : Schema} (hschema : schema.WellFormed) {bound bound' : List (String × Plan)}

include hschema

theorem ne_typename_of_slot {slot : Slot} (hslot : slot ∈ (schema.type type).projection.slots)
    (hplain : (schema.field slot.field).isTypename = false) {key key' : String}
    (h : KeyPair rename slot.key key key') : key ≠ typenameKey ∧ key' ≠ typenameKey := by
  obtain ⟨hmark, htypename⟩ := hschema.slot_type hslot
  cases h with
  | bare =>
      have hne : slot.key ≠ typenameKey := by
        intro hkey
        rw [htypename hkey] at hplain
        cases hplain
      exact ⟨hne, hne⟩
  | added output =>
      have hname : '#' ∉ typenameKey.toList := by decide
      exact ⟨(Text.ne_separated rfl hname _ _).symm, (Text.ne_separated rfl hname _ _).symm⟩

theorem evalBindings_rebound (h : Rebound schema rename type bound bound') (source : Source)
    (vars : List (String × Value)) (row : Value) :
    Outcome.Agree (Reentered schema rename type) (Plan.evalBindings source vars row bound)
      (Plan.evalBindings source vars row bound') := by
  induction h with
  | nil => exact .ok .nil
  | @cons one other _ _ hpair _ ih =>
      obtain ⟨key, plan⟩ := one
      obtain ⟨key', plan'⟩ := other
      obtain ⟨slot, hslot, hplain, hkeys, hplans⟩ := hpair
      dsimp only at hkeys hplans
      obtain ⟨hmark, _⟩ := hschema.slot_type hslot
      rw [Plan.evalBindings, Plan.evalBindings]
      refine (hplans.values source vars row).bind fun value value' hvalue => ?_
      refine ih.bind fun entries entries' hentries => .ok (.cons ⟨⟨_, hmark, hkeys⟩, ?_, ?_⟩ hentries)
      · intro hname
        exact absurd hname (ne_typename_of_slot hschema hslot hplain hkeys).1
      · intro other hother _ hkeys'
        have hbase := (KeyPair.right_unique hmark (hschema.slot_type hother).1 hkeys hkeys').1
        rw [← Claim.slot_of_key (hschema.apart_type type) hslot hother hbase]
        exact hvalue

omit hschema in
/-- Objects of entries that correspond are records that do. -/
theorem rerecorded_of_reentered (hrename : Function.Injective rename)
    (hmark : ∀ slot ∈ (schema.type type).projection.slots, '#' ∉ slot.key.toList)
    (hcomposite : (schema.type type).isLeaf = false) {entries others : List (String × Value)}
    (h : Reentered schema rename type entries others) :
    schema.Rerecorded rename type (.ofEntries entries) (.ofEntries others) := by
  have hget {key key' : String} (hkeys : ∃ base : String, '#' ∉ base.toList ∧
      KeyPair rename base key key') :=
    @Members.get?_ofList_related _ _ _ (KeyPair.biUnique hrename) (HeldAlike schema rename type) h key
      key' hkeys
  refine .record hcomposite ?_ ?_ ?_
  · have htypename := hget KeyPair.typename
    generalize Members.get? typenameKey (.ofList entries) = one at htypename
    generalize Members.get? typenameKey (.ofList others) = other at htypename
    cases htypename with
    | none => rfl
    | some hheld => rw [hheld.1 rfl]
  · intro slot hslot _ key key' hkeys
    have hslots := hget ⟨_, hmark slot hslot, hkeys⟩
    generalize Members.get? key (.ofList entries) = one at hslots
    generalize Members.get? key' (.ofList others) = other at hslots
    cases hslots <;> rfl
  · intro slot hslot hplain key key' hkeys value other hvalue hother
    have hslots := hget ⟨_, hmark slot hslot, hkeys⟩
    rw [hvalue, hother] at hslots
    cases hslots with
    | some hheld => exact hheld.2 slot hslot hplain hkeys

omit hschema in
theorem anyBinding_rebound (h : Rebound schema rename type bound bound') :
    Plan.anyBinding Plan.isCast bound = Plan.anyBinding Plan.isCast bound' := by
  induction h with
  | nil => rfl
  | @cons one other _ _ hpair _ ih =>
      obtain ⟨key, plan⟩ := one
      obtain ⟨key', plan'⟩ := other
      obtain ⟨slot, _, _, _, hplans⟩ := hpair
      rw [Plan.anyBinding, Plan.anyBinding, hplans.casts, ih]

theorem filter_rebound (h : Rebound schema rename type bound bound') :
    bound.filter (fun entry => entry.1 != typenameKey) = bound ∧
      bound'.filter (fun entry => entry.1 != typenameKey) = bound' := by
  rw [List.filter_eq_self, List.filter_eq_self]
  induction h with
  | nil => exact ⟨fun _ hmem => absurd hmem List.not_mem_nil, fun _ hmem => absurd hmem List.not_mem_nil⟩
  | cons hpair _ ih =>
      obtain ⟨slot, hslot, hplain, hkeys, _⟩ := hpair
      obtain ⟨hkey, hkey'⟩ := ne_typename_of_slot hschema hslot hplain hkeys
      exact ⟨List.forall_mem_cons.mpr ⟨bne_iff_ne.mpr hkey, ih.1⟩,
        List.forall_mem_cons.mpr ⟨bne_iff_ne.mpr hkey', ih.2⟩⟩

end

section

variable (hschema : compiler.schema.WellFormed) (hrename : Function.Injective rename)

include hschema hrename

theorem recordOf_replanned (hcomposite : (compiler.schema.type type).isLeaf = false)
    (level : List BoundSelection) {bound bound' : List (String × Plan)}
    (h : Rebound compiler.schema rename type bound bound') :
    compiler.schema.Replanned rename type (compiler.recordOf (compiler.schema.type type) level bound)
      (compiler.recordOf (compiler.schema.type type) (level.map (BoundSelection.realias rename)) bound') := by
  have hneeds : (level.map (BoundSelection.realias rename)).any (needsTypename compiler.schema) =
      level.any (needsTypename compiler.schema) := by
    rw [List.any_map]
    refine congrArg (List.any level) (funext fun selection => ?_)
    rw [Function.comp, needsTypename, needsTypename, BoundSelection.condition?_realias,
      BoundSelection.field_realias]
  obtain ⟨hkept, hkept'⟩ := filter_rebound hschema h
  have hrecords {entries others : List (String × Value)}
      (hentries : Reentered compiler.schema rename type entries others) :=
    rerecorded_of_reentered hrename (fun slot hslot => (hschema.slot_type hslot).1) hcomposite hentries
  have hbound := evalBindings_rebound hschema h
  unfold recordOf
  rw [hneeds, hkept, hkept']
  split
  · refine ⟨?_, fun source vars row => ?_⟩
    · rw [Plan.any, Plan.any, Plan.anyBinding, Plan.anyBinding, anyBinding_rebound h]
      rfl
    · rw [Plan.evalIn, Plan.evalIn, Plan.evalBindings, Plan.evalBindings]
      refine Outcome.Agree.map ?_ fun _ _ => hrecords
      refine (Outcome.Agree.refl _).bind ?_
      rintro name _ rfl
      refine (hbound source vars row).bind fun _ _ hentries => .ok (.cons ⟨KeyPair.typename, ?_, ?_⟩ hentries)
      · exact fun _ => rfl
      · intro slot hslot hplain hkeys
        exact absurd rfl (ne_typename_of_slot hschema hslot hplain hkeys).1
  · refine ⟨?_, fun source vars row => ?_⟩
    · rw [Plan.any, Plan.any, anyBinding_rebound h]
      rfl
    · rw [Plan.evalIn, Plan.evalIn]
      exact (hbound source vars row).map fun _ _ => hrecords

omit hschema hrename in
theorem compose_replanned {field : Field} {children : List BoundSelection} {depth : Nat}
    (hrecord : (compiler.schema.type field.target).isLeaf = false →
      Related (compiler.schema.Replanned rename field.target)
        (compiler.record (compiler.schema.type field.target) children depth)
        (compiler.record (compiler.schema.type field.target)
          (children.map (BoundSelection.realias rename)) depth)) (plan : Plan) :
    Related (compiler.schema.Replanned rename field.target) (compiler.compose field plan children depth)
      (compiler.compose field plan (children.map (BoundSelection.realias rename)) depth) := by
  unfold compose
  dsimp only
  cases hleaf : (compiler.schema.type field.target).isLeaf with
  | true => exact .pure (.refl hleaf _)
  | false => exact (hrecord hleaf).bind fun _ _ _ _ h => .pure (project_replanned hleaf h)

omit hschema hrename in
theorem binding_replanned {owner : SchemaType} {depth : Nat} {selection : BoundSelection}
    (hcomposed : ∀ plan, Related
      (compiler.schema.Replanned rename (compiler.schema.field selection.field).target)
      (compiler.compose (compiler.schema.field selection.field) plan selection.children (depth + 1))
      (compiler.compose (compiler.schema.field selection.field) plan
        (selection.children.map (BoundSelection.realias rename)) (depth + 1))) :
    Related (compiler.schema.Replanned rename (compiler.schema.field selection.field).target)
      (compiler.binding owner depth selection)
      (compiler.binding owner depth (selection.realias rename)) := by
  unfold binding
  rw [BoundSelection.field_realias, BoundSelection.arguments_realias, BoundSelection.children_realias]
  refine (Related.refl _).bind ?_
  rintro plan _ _ _ rfl
  exact (hcomposed plan).bind fun _ _ _ _ h => .pure (placed_replanned h)

/-- Keys that correspond are bound already, or both are not. -/
theorem lookup_rebound {bound bound' : List (String × Plan)}
    (h : Rebound compiler.schema rename type bound bound') {slot : Slot}
    (hslot : slot ∈ (compiler.schema.type type).projection.slots) {key key' : String}
    (hpair : KeyPair rename slot.key key key') : (bound.lookup key).isSome = (bound'.lookup key').isSome := by
  have hmark {slot : Slot} (hslot : slot ∈ (compiler.schema.type type).projection.slots) :
      '#' ∉ slot.key.toList :=
    (hschema.slot_type hslot).1
  have hbound : List.Forall₂ (fun one other => (∃ base : String, '#' ∉ base.toList ∧
      KeyPair rename base one.1 other.1) ∧ True) bound bound' := by
    refine h.imp ?_
    rintro one other ⟨found, hfound, _, hkeys, _⟩
    exact ⟨⟨found.key, hmark hfound, hkeys⟩, trivial⟩
  have hfound := @Keyed.lookup_related _ _ _ (KeyPair.biUnique hrename) (fun _ _ _ _ => True) _ _ hbound
    key key' ⟨slot.key, hmark hslot, hpair⟩
  generalize bound.lookup key = found? at hfound
  generalize bound'.lookup key' = found'? at hfound
  cases hfound <;> rfl

variable {depth : Nat}

theorem bindSelection_rebound {selection : BoundSelection} (hbinding : Related
      (compiler.schema.Replanned rename (compiler.schema.field selection.field).target)
      (compiler.binding (compiler.schema.type type) depth selection)
      (compiler.binding (compiler.schema.type type) depth (selection.realias rename)))
    {slot : Slot} (hslot : slot ∈ (compiler.schema.type type).projection.slots)
    (hfield : compiler.schema.field slot.field = compiler.schema.field selection.field)
    (hplain : (compiler.schema.field slot.field).isTypename = false) {key key' : String}
    (hpair : KeyPair rename slot.key key key') {bound bound' : List (String × Plan)}
    (h : Rebound compiler.schema rename type bound bound') :
    Related (Rebound compiler.schema rename type)
      (compiler.bindSelection (compiler.schema.type type) depth key bound selection)
      (compiler.bindSelection (compiler.schema.type type) depth key' bound' (selection.realias rename)) := by
  rw [bindSelection_eq, bindSelection_eq, lookup_rebound hschema hrename h hslot hpair]
  split
  · exact .pure h
  · refine hbinding.bind fun plan plan' _ _ hplan => .pure ?_
    rw [← hfield] at hplan
    exact List.rel_append h (.cons ⟨slot, hslot, hplain, hpair, hplan⟩ .nil)

theorem bindSelections_rebound {level : List BoundSelection}
    (hbinding : ∀ selection ∈ level, Related
      (compiler.schema.Replanned rename (compiler.schema.field selection.field).target)
      (compiler.binding (compiler.schema.type type) depth selection)
      (compiler.binding (compiler.schema.type type) depth (selection.realias rename)))
    {keys keys' : List (Option String)}
    (hkeys : compiler.schema.Rekeyed rename (compiler.schema.type type) level keys keys')
    {bound bound' : List (String × Plan)} (h : Rebound compiler.schema rename type bound bound') :
    Related (Rebound compiler.schema rename type)
      (compiler.bindSelections (compiler.schema.type type) depth keys bound level)
      (compiler.bindSelections (compiler.schema.type type) depth keys' bound'
        (level.map (BoundSelection.realias rename))) := by
  induction hkeys generalizing bound bound' with
  | nil => exact .pure h
  | unkeyed _ ih => exact ih (fun other hmem => hbinding other (List.mem_cons_of_mem _ hmem)) h
  | keyed hslot hfield hplain hpair _ ih =>
      have hrest := @ih fun other hmem => hbinding other (List.mem_cons_of_mem _ hmem)
      have hselection := hbinding _ List.mem_cons_self
      exact (bindSelection_rebound hschema hrename hselection hslot hfield hplain hpair h).bind
        fun _ _ _ _ hbound => hrest hbound

/-- Records compiled with new aliases hold what those compiled with old ones hold. -/
theorem record_replanned (level : List BoundSelection) : ∀ {type : TypeId} {depth : Nat},
    (compiler.schema.type type).isLeaf = false →
      Related (compiler.schema.Replanned rename type)
        (compiler.record (compiler.schema.type type) level depth)
        (compiler.record (compiler.schema.type type) (level.map (BoundSelection.realias rename)) depth) := by
  induction level using BoundSelection.level_induction with
  | step level below =>
      intro type depth hcomposite
      have hbinding (selection : BoundSelection) (hmem : selection ∈ level) : Related
          (compiler.schema.Replanned rename (compiler.schema.field selection.field).target)
          (compiler.binding (compiler.schema.type type) depth selection)
          (compiler.binding (compiler.schema.type type) depth (selection.realias rename)) :=
        binding_replanned fun plan => compose_replanned (fun hleaf => below selection hmem hleaf) plan
      unfold record
      refine (Schema.recordKeys_realias hschema hrename _ level).bind fun keys keys' _ _ hkeys => ?_
      refine (bindSelections_rebound hschema hrename hbinding hkeys .nil).bind fun _ _ _ _ hbound => ?_
      exact .pure (recordOf_replanned hschema hrename hcomposite level hbound)

end

end Compiler

end GraphQuery
