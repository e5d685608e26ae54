import GraphQuery.Proofs.Query.Level
import GraphQuery.Proofs.Schema.WellFormed
import GraphQuery.Query.Record

/-! Keys in records. Every selection of a bound level has a slot, so that keys for the level are always
found; two selections share a key exactly when they ask for one field under one response key, whatever
their conditions are. -/

namespace GraphQuery

/-- A field and a response key with the key in records that they have taken. -/
abbrev Claim := FieldId × String × String

namespace Claim

/-- What holds of the keys that are taken in the records of a projection: each is the key of the slot of
its field, or that with the response key added; one field under one response key has one key; and the
key of a slot alone is for one response key. -/
structure Sound (projection : Projection) (claimed : List Claim) : Prop where
  form : ∀ claim ∈ claimed, ∃ slot ∈ projection.slots, slot.field = claim.1 ∧
    (claim.2.2 = slot.key ∨ claim.2.2 = slot.key ++ "#" ++ claim.2.1)
  same : ∀ a ∈ claimed, ∀ b ∈ claimed, a.1 = b.1 → a.2.1 = b.2.1 → a.2.2 = b.2.2
  bare : ∀ a ∈ claimed, ∀ b ∈ claimed, ∀ slot ∈ projection.slots, a.2.2 = slot.key →
    b.2.2 = slot.key → a.2.1 = b.2.1

theorem Sound.subset {projection : Projection} {claimed fewer : List Claim}
    (h : Sound projection claimed) (hsubset : fewer ⊆ claimed) : Sound projection fewer :=
  ⟨fun claim hmem => h.form claim (hsubset hmem),
    fun a ha b hb => h.same a (hsubset ha) b (hsubset hb),
    fun a ha b hb => h.bare a (hsubset ha) b (hsubset hb)⟩

theorem Sound.nil (projection : Projection) : Sound projection [] :=
  ⟨fun _ hmem => absurd hmem List.not_mem_nil, fun _ hmem => absurd hmem List.not_mem_nil,
    fun _ hmem => absurd hmem List.not_mem_nil⟩

section

variable {projection : Projection} (hapart : projection.Apart)
  (hmark : ∀ slot ∈ projection.slots, '#' ∉ slot.key.toList)

include hapart

theorem slot_of_key {a b : Slot} (ha : a ∈ projection.slots) (hb : b ∈ projection.slots)
    (hkey : a.key = b.key) : a = b := by
  have hkeys : (projection.slots.map Slot.key).Nodup :=
    List.pairwise_map.mpr (hapart.imp fun h => h.2)
  exact List.inj_on_of_nodup_map hkeys ha hb hkey

include hmark

/-- A key tells the field and the response key that took it. -/
theorem Sound.injective {claimed : List Claim} (h : Sound projection claimed) {a b : Claim}
    (ha : a ∈ claimed) (hb : b ∈ claimed) (hkey : a.2.2 = b.2.2) : a.1 = b.1 ∧ a.2.1 = b.2.1 := by
  have hhash : "#".toList = ['#'] := rfl
  obtain ⟨slot, hslot, hfield, hform⟩ := h.form a ha
  obtain ⟨other, hother, hfield', hform'⟩ := h.form b hb
  rcases hform with hform | hform <;> rcases hform' with hform' | hform'
  · have hsame := slot_of_key hapart hslot hother (hform.symm.trans (hkey.trans hform'))
    subst hsame
    exact ⟨hfield.symm.trans hfield', h.bare a ha b hb slot hslot hform hform'⟩
  · exact absurd (hform.symm.trans (hkey.trans hform')) (Text.ne_separated hhash (hmark slot hslot) _ _)
  · exact absurd (hform'.symm.trans (hkey.symm.trans hform))
      (Text.ne_separated hhash (hmark other hother) _ _)
  · obtain ⟨hslots, houtput⟩ := Text.separated_inj hhash (hmark slot hslot) (hmark other hother)
      (hform.symm.trans (hkey.trans hform'))
    have hsame := slot_of_key hapart hslot hother hslots
    subst hsame
    exact ⟨hfield.symm.trans hfield', houtput⟩

/-- A key that is not taken yet is taken soundly: the bare one where the field has none, else the one
with the response key added. -/
theorem Sound.add {claimed : List Claim} (h : Sound projection claimed) {slot : Slot}
    (hslot : slot ∈ projection.slots) {output key : String}
    (hnew : ∀ claim ∈ claimed, claim.1 = slot.field → claim.2.1 ≠ output)
    (hkey : key = slot.key ∧ (∀ claim ∈ claimed, claim.1 ≠ slot.field) ∨
      key = slot.key ++ "#" ++ output) : Sound projection (claimed ++ [(slot.field, output, key)]) := by
  have hhash : "#".toList = ['#'] := rfl
  have hforward (claim : Claim) (hmem : claim ∈ claimed) (other : Slot)
      (hother : other ∈ projection.slots) (hbare : claim.2.2 = other.key) (hbare' : key = other.key) :
      claim.2.1 = output := by
    rcases hkey with ⟨hbare'', hnone⟩ | hadded
    · have hsame := slot_of_key hapart hother hslot (hbare'.symm.trans hbare'')
      obtain ⟨found, hfound, hfield, hform⟩ := h.form claim hmem
      rcases hform with hform | hform
      · have hplace := slot_of_key hapart hfound hother (hform.symm.trans hbare)
        rw [hplace, hsame] at hfield
        exact absurd hfield.symm (hnone claim hmem)
      · exact absurd (hbare.symm.trans hform) (Text.ne_separated hhash (hmark other hother) _ _)
    · exact absurd (hbare'.symm.trans hadded) (Text.ne_separated hhash (hmark other hother) _ _)
  constructor
  · intro claim hmem
    rcases List.mem_append.mp hmem with hmem | hmem
    · exact h.form claim hmem
    · rw [List.mem_singleton.mp hmem]
      exact ⟨slot, hslot, rfl, hkey.imp_left And.left⟩
  · intro a ha b hb hfield houtput
    rcases List.mem_append.mp ha with ha | ha <;> rcases List.mem_append.mp hb with hb | hb
    · exact h.same a ha b hb hfield houtput
    · rw [List.mem_singleton.mp hb] at hfield houtput
      exact absurd houtput (hnew a ha hfield)
    · rw [List.mem_singleton.mp ha] at hfield houtput
      exact absurd houtput.symm (hnew b hb hfield.symm)
    · rw [List.mem_singleton.mp ha, List.mem_singleton.mp hb]
  · intro a ha b hb other hother hbare hbare'
    rcases List.mem_append.mp ha with ha | ha <;> rcases List.mem_append.mp hb with hb | hb
    · exact h.bare a ha b hb other hother hbare hbare'
    · rw [List.mem_singleton.mp hb] at hbare' ⊢
      exact hforward a ha other hother hbare hbare'
    · rw [List.mem_singleton.mp ha] at hbare ⊢
      exact (hforward b hb other hother hbare' hbare).symm
    · rw [List.mem_singleton.mp ha, List.mem_singleton.mp hb]

/-- The key that a selection gets is taken soundly. -/
theorem Sound.claim {claimed : List Claim} (h : Sound projection claimed) {slot : Slot}
    (hslot : slot ∈ projection.slots) (output : String) :
    Sound projection (claimed ++ [(slot.field, output, Schema.recordKey claimed slot output)]) := by
  unfold Schema.recordKey
  split
  · next field name key hfound =>
      have hmem := List.mem_of_find?_eq_some hfound
      have hsame := List.find?_some hfound
      simp only [Bool.and_eq_true, beq_iff_eq] at hsame
      obtain ⟨rfl, rfl⟩ := hsame
      refine h.subset fun claim hclaim => ?_
      rcases List.mem_append.mp hclaim with hclaim | hclaim
      · exact hclaim
      · rw [List.mem_singleton.mp hclaim]
        exact hmem
  · next hnone =>
      have hnew : ∀ claim ∈ claimed, claim.1 = slot.field → claim.2.1 ≠ output := by
        intro claim hmem hfield houtput
        have hfalse := List.find?_eq_none.mp hnone claim hmem
        simp [hfield, houtput] at hfalse
      split
      · exact h.add hapart hmark hslot hnew (Or.inr rfl)
      · next hany =>
          refine h.add hapart hmark hslot hnew (Or.inl ⟨rfl, fun claim hmem hfield => hany ?_⟩)
          exact List.any_eq_true.mpr ⟨claim, hmem, beq_iff_eq.mpr hfield⟩

end

end Claim

theorem Field.isTypename_of_isPost {field : Field} (h : field.isPost = true) : field.isTypename = false := by
  rw [isPost] at h
  rw [isTypename]
  split at h
  · next hresolver => rw [hresolver]
  · cases h

namespace Schema

/-- Does a selection have a place in records? Post fields and the name of the type have none. -/
def keyed (schema : Schema) (selection : BoundSelection) : Bool :=
  !((schema.field selection.field).isTypename || (schema.field selection.field).isPost)

theorem keyed_iff {schema : Schema} {selection : BoundSelection} : schema.keyed selection = true ↔
    (schema.field selection.field).isTypename = false ∧ (schema.field selection.field).isPost = false := by
  rw [keyed, Bool.not_eq_true', Bool.or_eq_false_iff]

/-- Keys for the selections of a level. -/
structure Keying (schema : Schema) (level : List BoundSelection)
    (key? : BoundSelection → Option String) : Prop where
  isSome : ∀ selection ∈ level, (key? selection).isSome = schema.keyed selection
  same_iff : ∀ a ∈ level, ∀ b ∈ level, schema.keyed a = true →
    (key? a = key? b ↔ a.field = b.field ∧ a.outputName = b.outputName)
  ne_typename : ∀ selection ∈ level, key? selection ≠ some typenameKey

/-- The key that a selection has among those that are taken. -/
def keyAmong (schema : Schema) (taken : List Claim) (selection : BoundSelection) : Option String :=
  if schema.keyed selection then
    (taken.find? fun claim => claim.1 == selection.field && claim.2.1 == selection.outputName).map
      fun claim => claim.2.2
  else none

theorem keyAmong_of_mem {schema : Schema} {projection : Projection} {taken : List Claim}
    (hsound : Claim.Sound projection taken) {selection : BoundSelection} {key : String}
    (hkeyed : schema.keyed selection = true)
    (hmem : (selection.field, selection.outputName, key) ∈ taken) :
    schema.keyAmong taken selection = some key := by
  rw [keyAmong, if_pos hkeyed]
  cases hfind : taken.find? fun claim =>
      claim.1 == selection.field && claim.2.1 == selection.outputName with
  | none =>
      have hfalse := List.find?_eq_none.mp hfind _ hmem
      simp at hfalse
  | some claim =>
      have hsame := List.find?_some hfind
      simp only [Bool.and_eq_true, beq_iff_eq] at hsame
      rw [Option.map_some, Option.some.injEq]
      exact hsound.same claim (List.mem_of_find?_eq_some hfind) _ hmem hsame.1 hsame.2

section

variable {schema : Schema} (hschema : schema.WellFormed)

include hschema

theorem WellFormed.apart_type (owner : TypeId) : (schema.type owner).projection.Apart := by
  by_cases hlt : owner < schema.types.length
  · exact hschema.apart _ (type_mem hlt)
  · rw [type_of_le (Nat.le_of_not_lt hlt)]
    exact List.Pairwise.nil

theorem WellFormed.slot_type {owner : TypeId} {slot : Slot}
    (hslot : slot ∈ (schema.type owner).projection.slots) : '#' ∉ slot.key.toList ∧
      (slot.key = typenameKey → (schema.field slot.field).isTypename = true) := by
  by_cases hlt : owner < schema.types.length
  · exact ⟨hschema.key_mark _ (type_mem hlt) slot hslot, hschema.key_typename _ (type_mem hlt) slot hslot⟩
  · rw [type_of_le (Nat.le_of_not_lt hlt)] at hslot
    cases hslot

/-- A field that is not the name of a type stands at its place. -/
theorem WellFormed.field_at {id : FieldId} (hplain : (schema.field id).isTypename = false) :
    schema.field (schema.field id).id = schema.field id := by
  by_cases hid : id < schema.fields.length
  · have hget := List.getElem?_eq_getElem hid
    rw [field_eq hget, hschema.field_id id _ hget, field_eq hget]
  · rw [field_of_le (Nat.le_of_not_lt hid)] at hplain
    cases hplain

/-- The field of a selection with a key leads to a type of the schema. -/
theorem WellFormed.target_lt_of_keyed {selection : BoundSelection} (hkeyed : schema.keyed selection = true) :
    (schema.field selection.field).target < schema.types.length := by
  by_cases hid : selection.field < schema.fields.length
  · exact hschema.target_lt _ (field_mem hid)
  · obtain ⟨htypename, _⟩ := keyed_iff.mp hkeyed
    rw [field_of_le (Nat.le_of_not_lt hid)] at htypename
    cases htypename

/-- Keys are found for selections that rows can carry, after any that are taken soundly. -/
theorem recordKeysFrom_ok {owner : TypeId} {level : List BoundSelection}
    (hlevel : ∀ selection ∈ level, schema.Carries owner selection) (claimed : List Claim)
    (hclaimed : Claim.Sound (schema.type owner).projection claimed) :
    ∃ taken, schema.recordKeysFrom (schema.type owner) claimed level =
        .ok (level.map (schema.keyAmong taken)) ∧
      claimed ⊆ taken ∧ Claim.Sound (schema.type owner).projection taken ∧
      ∀ selection ∈ level, schema.keyed selection = true →
        ∃ key, (selection.field, selection.outputName, key) ∈ taken := by
  induction level generalizing claimed with
  | nil => exact ⟨claimed, rfl, List.Subset.refl _, hclaimed, fun _ hmem => absurd hmem List.not_mem_nil⟩
  | cons selection rest ih =>
      have hselection := hlevel selection List.mem_cons_self
      have hrest := fun other hmem => hlevel other (List.mem_cons_of_mem _ hmem)
      unfold recordKeysFrom
      dsimp only
      split
      · next hplain =>
          have hkeyed : schema.keyed selection = false := by
            rw [keyed, hplain]
            rfl
          obtain ⟨taken, hkeys, hsubset, hsound, hall⟩ := ih hrest claimed hclaimed
          refine ⟨taken, ?_, hsubset, hsound, ?_⟩
          · rw [hkeys, List.map_cons, keyAmong, hkeyed]
            rfl
          · intro other hmem hother
            rcases List.mem_cons.mp hmem with rfl | hmem
            · rw [hkeyed] at hother
              cases hother
            · exact hall other hmem hother
      · next hcarried =>
          have hkeyed : schema.keyed selection = true := by
            rw [keyed, eq_false_of_ne_true hcarried]
            rfl
          rw [hselection.field_id]
          split
          · next hnone =>
              have hcarries := hselection.carried
              rw [hnone] at hcarries
              rw [Bool.or_eq_true, not_or] at hcarried
              rcases hcarries with hpost | htypename | hslot
              · exact absurd hpost hcarried.2
              · exact absurd htypename hcarried.1
              · cases hslot
          · next slot hslot =>
              unfold Projection.slotFor? at hslot
              have hmem := List.mem_of_find?_eq_some hslot
              have hsame := List.find?_some hslot
              have hfield : slot.field = selection.field := beq_iff_eq.mp hsame
              have hclaim := hclaimed.claim (hschema.apart_type owner)
                (fun slot hslot => (hschema.slot_type hslot).1) hmem selection.outputName
              rw [hfield] at hclaim
              obtain ⟨taken, hkeys, hsubset, hsound, hall⟩ := ih hrest _ hclaim
              have hhead := hsubset (List.mem_append_right _ List.mem_cons_self)
              refine ⟨taken, ?_, fun claim h => hsubset (List.mem_append_left _ h), hsound, ?_⟩
              · rw [hkeys, List.map_cons, keyAmong_of_mem hsound hkeyed hhead]
                rfl
              · intro other hmem hother
                rcases List.mem_cons.mp hmem with rfl | hmem
                · exact ⟨_, hhead⟩
                · exact hall other hmem hother

/-- Every level of selections that rows can carry has keys, which tell its fields and response keys
apart. -/
theorem recordKeys_ok {owner : TypeId} {level : List BoundSelection}
    (hlevel : ∀ selection ∈ level, schema.Carries owner selection) :
    ∃ key?, schema.recordKeys (schema.type owner) level = .ok (level.map key?) ∧
      schema.Keying level key? := by
  obtain ⟨taken, hkeys, _, hsound, hall⟩ := recordKeysFrom_ok hschema hlevel [] (Claim.Sound.nil _)
  have hplain (selection : BoundSelection) (hkeyed : schema.keyed selection = false) :
      schema.keyAmong taken selection = none := by
    rw [keyAmong, hkeyed]
    rfl
  refine ⟨schema.keyAmong taken, hkeys, ?_, ?_, ?_⟩
  · intro selection hmem
    cases hkeyed : schema.keyed selection with
    | false => rw [hplain selection hkeyed, Option.isSome_none]
    | true =>
        obtain ⟨key, hkey⟩ := hall selection hmem hkeyed
        rw [keyAmong_of_mem hsound hkeyed hkey, Option.isSome_some]
  · intro a ha b hb hkeyed
    obtain ⟨key, hkey⟩ := hall a ha hkeyed
    rw [keyAmong_of_mem hsound hkeyed hkey]
    constructor
    · intro hsame
      cases hother : schema.keyed b with
      | false =>
          rw [hplain b hother] at hsame
          cases hsame
      | true =>
          obtain ⟨key', hkey'⟩ := hall b hb hother
          rw [keyAmong_of_mem hsound hother hkey', Option.some.injEq] at hsame
          exact hsound.injective (hschema.apart_type owner)
            (fun slot hslot => (hschema.slot_type hslot).1) hkey hkey' hsame
    · rintro ⟨hfield, houtput⟩
      have hother : schema.keyed b = true := by
        rw [keyed, ← hfield]
        exact hkeyed
      rw [hfield, houtput] at hkey
      exact (keyAmong_of_mem hsound hother hkey).symm
  · intro selection hmem htypename
    cases hkeyed : schema.keyed selection with
    | false =>
        rw [hplain selection hkeyed] at htypename
        cases htypename
    | true =>
        obtain ⟨key, hkey⟩ := hall selection hmem hkeyed
        rw [keyAmong_of_mem hsound hkeyed hkey, Option.some.injEq] at htypename
        obtain ⟨slot, hslot, hfield, hform⟩ := hsound.form _ hkey
        dsimp only at hfield hform
        rw [htypename] at hform
        rcases hform with hform | hform
        · have hname := (hschema.slot_type hslot).2 hform.symm
          rw [hfield] at hname
          rw [keyed, hname] at hkeyed
          cases hkeyed
        · have hhash : '#' ∉ typenameKey.toList := by decide
          exact absurd hform (Text.ne_separated rfl hhash _ _)

/-- The key of a selection is that of the slot of its field, or has the response key added. -/
theorem slot_of_recordKey {owner : TypeId} {level : List BoundSelection}
    (hlevel : ∀ selection ∈ level, schema.Carries owner selection)
    {key? : BoundSelection → Option String}
    (hkeys : schema.recordKeys (schema.type owner) level = .ok (level.map key?))
    {selection : BoundSelection} (hmem : selection ∈ level) {key : String}
    (hkey : key? selection = some key) :
    ∃ slot ∈ (schema.type owner).projection.slots, slot.field = selection.field ∧
      (key = slot.key ∨ key = slot.key ++ "#" ++ selection.outputName) := by
  obtain ⟨taken, htaken, _, hsound, hall⟩ := recordKeysFrom_ok hschema hlevel [] (Claim.Sound.nil _)
  have hsame : level.map key? = level.map (schema.keyAmong taken) :=
    Except.ok.inj (hkeys.symm.trans htaken)
  rw [List.map_inj_left.mp hsame selection hmem] at hkey
  cases hkeyed : schema.keyed selection with
  | false =>
      rw [keyAmong, hkeyed] at hkey
      cases hkey
  | true =>
      obtain ⟨found, hfound⟩ := hall selection hmem hkeyed
      rw [keyAmong_of_mem hsound hkeyed hfound, Option.some.injEq] at hkey
      subst hkey
      exact hsound.form _ hfound

/-- Selections of two levels that have one key are of one field. -/
theorem field_of_recordKey {owner : TypeId} {level others : List BoundSelection}
    (hlevel : ∀ selection ∈ level, schema.Carries owner selection)
    (hothers : ∀ selection ∈ others, schema.Carries owner selection)
    {key? other? : BoundSelection → Option String}
    (hkeys : schema.recordKeys (schema.type owner) level = .ok (level.map key?))
    (hkeys' : schema.recordKeys (schema.type owner) others = .ok (others.map other?))
    {a b : BoundSelection} (ha : a ∈ level) (hb : b ∈ others) {key : String}
    (hkey : key? a = some key) (hkey' : other? b = some key) : a.field = b.field := by
  have hhash : "#".toList = ['#'] := rfl
  have hmark {slot : Slot} (hslot : slot ∈ (schema.type owner).projection.slots) :
      '#' ∉ slot.key.toList :=
    (hschema.slot_type hslot).1
  obtain ⟨slot, hslot, hfield, hform⟩ := slot_of_recordKey hschema hlevel hkeys ha hkey
  obtain ⟨slot', hslot', hfield', hform'⟩ := slot_of_recordKey hschema hothers hkeys' hb hkey'
  have hsame : slot.key = slot'.key := by
    rcases hform with hform | hform <;> rcases hform' with hform' | hform'
    · exact hform.symm.trans hform'
    · exact absurd (hform.symm.trans hform') (Text.ne_separated hhash (hmark hslot) _ _)
    · exact absurd (hform'.symm.trans hform) (Text.ne_separated hhash (hmark hslot') _ _)
    · exact (Text.separated_inj hhash (hmark hslot) (hmark hslot') (hform.symm.trans hform')).1
  rw [← hfield, ← hfield', Claim.slot_of_key (hschema.apart_type owner) hslot hslot' hsame]

end

end Schema

end GraphQuery
