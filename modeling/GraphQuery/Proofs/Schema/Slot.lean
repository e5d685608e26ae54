import GraphQuery.Proofs.Schema.Completed
import GraphQuery.Proofs.Text.Separator

/-! Slots of projections. Each slot is for one field and bears its name, with the name of its declaring
type in front where the bare name is taken; since names have no separators, and a type declares a name
once, no two slots have one key. -/

namespace GraphQuery

/-- The fields of a schema are those of a draft, place by place. -/
structure Completion.FieldsOf (draft : Draft) (fields : List Field) : Prop where
  length : fields.length = draft.fields.length
  declared : ∀ (id : FieldId) (field : Field), fields[id]? = some field →
    ∃ (declared : DraftField) (target : TypeId), draft.fields[id]? = some declared ∧
      draft.byName.lookup declared.target.typeName = some target ∧
      field = completeField id declared target

theorem Completion.resolveTarget_ok {draft : Draft} {field : DraftField} {target : TypeId}
    (h : resolveTarget draft field = .ok target) :
    draft.byName.lookup field.target.typeName = some target := by
  unfold resolveTarget at h
  dsimp only at h
  split at h
  · cases h
  · next found hfound =>
      obtain ⟨_, _, hpure⟩ := Outcome.bind_ok_iff.mp h
      cases hpure
      exact hfound

theorem Completion.completeFields_ok {draft : Draft} {fields : List Field}
    (h : completeFields draft = .ok fields) : FieldsOf draft fields := by
  obtain ⟨targets, htargets, hpure⟩ := Outcome.bind_ok_iff.mp h
  cases hpure
  have hlength := Outcome.length_of_mapM htargets
  constructor
  · simp [hlength]
  · intro id field hfield
    simp only [List.getElem?_map, Option.map_eq_some_iff, List.getElem?_zip_eq_some, Prod.exists] at hfield
    obtain ⟨place, declared, target, ⟨hplace, hdeclared, htarget⟩, rfl⟩ := hfield
    obtain ⟨_, hplace⟩ := List.getElem?_eq_some_iff.mp hplace
    rw [List.getElem_range] at hplace
    subst hplace
    exact ⟨declared, target, hdeclared,
      resolveTarget_ok (Outcome.step_of_mapM htargets hdeclared htarget), rfl⟩

namespace Merge

open Completion (FieldsOf)

/-- Every slot is for a field of the schema and bears its name, and no two slots share a field or a
key. -/
structure Separate (context : Context) (projection : Projection) : Prop where
  named : ∀ slot ∈ projection.slots, ∃ field, context.fields[slot.field]? = some field ∧
    (slot.key = field.name ∨ slot.key = context.nameOf field.declaring ++ "." ++ field.name)
  distinct : projection.slots.Pairwise fun a b => a.field ≠ b.field ∧ a.key ≠ b.key

theorem typeNames_of_lt {context : Context} {id : TypeId} (h : id < context.draft.types.length) :
    context.draft.typeNames[id]? = some (context.nameOf id) := by
  simp [Draft.typeNames, Context.nameOf, Draft.type, h]

theorem Separate.empty (context : Context) (name : String) : Separate context (.empty name) :=
  ⟨fun _ hmem => absurd hmem List.not_mem_nil, List.Pairwise.nil⟩

section

variable {context : Context} (hdraft : context.draft.Consistent)
  (hfields : FieldsOf context.draft context.fields)

include hdraft hfields

theorem fieldName_valid {id : FieldId} {field : Field} (hfield : context.fields[id]? = some field) :
    Text.isName field.name = true := by
  obtain ⟨declared, _, hdeclared, _, rfl⟩ := hfields.declared id field hfield
  exact hdraft.fieldName_valid declared (List.mem_of_getElem? hdeclared)

theorem declaring_typeName {id : FieldId} {field : Field} (hfield : context.fields[id]? = some field) :
    context.draft.typeNames[field.declaring]? = some (context.nameOf field.declaring) := by
  obtain ⟨declared, _, hdeclared, _, rfl⟩ := hfields.declared id field hfield
  exact typeNames_of_lt (hdraft.owner_lt declared (List.mem_of_getElem? hdeclared))

/-- The names of a field and of its declaring type tell it from all other fields. -/
theorem field_unique {i j : FieldId} {a b : Field} (ha : context.fields[i]? = some a)
    (hb : context.fields[j]? = some b) (hname : a.name = b.name)
    (hdeclaring : context.nameOf a.declaring = context.nameOf b.declaring) : i = j := by
  have hda := (hdraft.byName_iff _ _).mpr (declaring_typeName hdraft hfields ha)
  have hdb := (hdraft.byName_iff _ _).mpr (declaring_typeName hdraft hfields hb)
  rw [hdeclaring, hdb, Option.some.injEq] at hda
  obtain ⟨a', _, ha', _, rfl⟩ := hfields.declared i a ha
  obtain ⟨b', _, hb', _, rfl⟩ := hfields.declared j b hb
  exact hdraft.own_names i j a' b' ha' hb' hda.symm hname

/-- The key under which a field is pushed is none of those that are there. -/
theorem Separate.pushed_key_ne {projection : Projection} (h : Separate context projection) {id : FieldId}
    {field : Field} (hfield : context.fields[id]? = some field)
    (hnew : projection.slotFor? id = none) (slot : Slot) (hslot : slot ∈ projection.slots) :
    slot.key ≠ if (projection.get? field.name).isSome then
      context.nameOf field.declaring ++ "." ++ field.name else field.name := by
  have hpoint : ".".toList = ['.'] := rfl
  split
  · intro hkey
    obtain ⟨other, hother, hnamed⟩ := h.named slot hslot
    have hname := Text.notMem_of_isName (fieldName_valid hdraft hfields hother) Text.isNamePart_point
    rcases hnamed with hnamed | hnamed
    · exact Text.ne_separated hpoint hname _ _ (hnamed.symm.trans hkey)
    · have hvalid {place : FieldId} {field : Field} (hfield : context.fields[place]? = some field) :
          '.' ∉ (context.nameOf field.declaring).toList :=
        Text.notMem_of_isName (hdraft.typeName_valid _
          (List.mem_of_getElem? (declaring_typeName hdraft hfields hfield))) Text.isNamePart_point
      obtain ⟨hdeclaring, hsame⟩ := Text.separated_inj hpoint (hvalid hother) (hvalid hfield)
        (hnamed.symm.trans hkey)
      have hplace := field_unique hdraft hfields hother hfield hsame hdeclaring
      exact absurd (beq_iff_eq.mpr hplace) (List.find?_eq_none.mp hnew slot hslot)
  · next htaken =>
      intro hkey
      rw [Option.not_isSome_iff_eq_none] at htaken
      exact absurd (beq_iff_eq.mpr hkey) (List.find?_eq_none.mp htaken slot hslot)

theorem Separate.pushSlot {projection : Projection} (h : Separate context projection) {id : FieldId}
    {field : Field} (hfield : context.fields[id]? = some field) :
    Separate context (pushSlot context projection field) := by
  have hid : field.id = id := by
    obtain ⟨_, _, _, _, rfl⟩ := hfields.declared id field hfield
    rfl
  unfold Merge.pushSlot Projection.push
  rw [hid]
  split
  · exact h
  · split
    · exact h
    · next hnew =>
        rw [Option.not_isSome_iff_eq_none] at hnew
        constructor
        · intro slot hmem
          rcases List.mem_append.mp hmem with hmem | hmem
          · exact h.named slot hmem
          · rw [List.mem_singleton.mp hmem]
            refine ⟨field, hfield, ?_⟩
            dsimp only
            split
            · exact Or.inr rfl
            · exact Or.inl rfl
        · refine List.pairwise_append.mpr ⟨h.distinct, List.pairwise_singleton _ _, ?_⟩
          intro slot hslot added hadded
          rw [List.mem_singleton.mp hadded]
          refine ⟨fun heq => ?_, h.pushed_key_ne hdraft hfields hfield hnew slot hslot⟩
          exact absurd (beq_iff_eq.mpr heq) (List.find?_eq_none.mp hnew slot hslot)

/-- A type owns only fields of the schema, which it declares. -/
theorem field_of_mem_own {source : TypeId} {id : FieldId}
    (hmem : id ∈ (context.draft.type source).fields) :
    ∃ field, context.fields[id]? = some field ∧ field.declaring = source := by
  obtain ⟨declared, hdeclared, howner⟩ := hdraft.mem_own_iff.mp hmem
  have hlt : id < context.fields.length := by
    rw [hfields.length]
    exact (List.getElem?_eq_some_iff.mp hdeclared).1
  have hget := List.getElem?_eq_getElem hlt
  refine ⟨_, hget, ?_⟩
  obtain ⟨same, _, hsame, _, heq⟩ := hfields.declared id _ hget
  rw [hdeclared, Option.some.injEq] at hsame
  rw [heq, ← hsame]
  exact howner

/-- What each field added keeps holds of all that is collected for a type. -/
theorem collected_of_fields {owner : TypeId} {merged : Merged} {holds : Merged → Prop}
    (hstart : holds ⟨[], .empty (context.nameOf owner)⟩)
    (hstep : ∀ {source : TypeId} {id : FieldId} {field : Field} {state next : Merged},
      context.fields[id]? = some field → field.declaring = source → holds state →
      addField context owner source state id = .ok next → holds next)
    (h : fields context owner = .ok merged) :
    ∃ collected, holds collected ∧
      merged = { collected with projection := arrange context collected.projection } := by
  obtain ⟨collected, hcollected, hpure⟩ := Outcome.bind_ok_iff.mp h
  cases hpure
  refine ⟨collected, Outcome.foldlM_preserves holds ?_ hstart hcollected, rfl⟩
  intro source _ state next hstate hnext
  refine Outcome.foldlM_preserves holds ?_ hstate hnext
  intro id hid state next hstate hnext
  obtain ⟨field, hfield, hdeclaring⟩ := field_of_mem_own hdraft hfields hid
  exact hstep hfield hdeclaring hstate hnext

end

theorem Context.getD_fields {context : Context} {id : FieldId} {field : Field}
    (h : context.fields[id]? = some field) : context.fields.getD id default = field := by
  rw [List.getD_eq_getElem?_getD, h]
  rfl

/-- The visible fields are fields of the schema under their own names, and their slots are separate. -/
structure Sound (context : Context) (merged : Merged) : Prop where
  lookup : ∀ entry ∈ merged.lookup, ∃ field, context.fields[entry.2]? = some field ∧ field.name = entry.1
  slots : Separate context merged.projection

/-- Of the fields that name the type, a type shows its own one only. -/
def TypenameOwn (context : Context) (owner : TypeId) (merged : Merged) : Prop :=
  ∀ entry ∈ merged.lookup, ∀ field, context.fields[entry.2]? = some field → field.isTypename = true →
    field.declaring = owner

theorem TypenameOwn.addField {context : Context} {owner source : TypeId} {merged result : Merged}
    {id : FieldId} {field : Field} (h : TypenameOwn context owner merged)
    (hfield : context.fields[id]? = some field) (hdeclaring : field.declaring = source)
    (hok : addField context owner source merged id = .ok result) : TypenameOwn context owner result := by
  unfold Merge.addField at hok
  rw [Context.getD_fields hfield] at hok
  dsimp only at hok
  split at hok
  · cases hok
    exact h
  · next hplace =>
      split at hok
      · cases hok
        intro entry hmem other hother htypename
        rcases List.mem_append.mp hmem with hmem | hmem
        · exact h entry hmem other hother htypename
        · rw [List.mem_singleton.mp hmem, hfield, Option.some.injEq] at hother
          subst hother
          rw [hdeclaring]
          simpa [htypename] using hplace
      · split at hok
        · cases hok
          exact h
        · split at hok
          · cases hok
            exact h
          · cases hok

section

variable {context : Context} (hdraft : context.draft.Consistent)
  (hfields : FieldsOf context.draft context.fields)

include hdraft hfields

theorem Sound.addField {owner source : TypeId} {merged result : Merged} {id : FieldId} {field : Field}
    (h : Sound context merged) (hfield : context.fields[id]? = some field)
    (hok : addField context owner source merged id = .ok result) : Sound context result := by
  have hslots := h.slots.pushSlot hdraft hfields hfield
  unfold Merge.addField at hok
  rw [Context.getD_fields hfield] at hok
  dsimp only at hok
  split at hok
  · cases hok
    exact h
  · split at hok
    · cases hok
      refine ⟨?_, hslots⟩
      intro entry hmem
      rcases List.mem_append.mp hmem with hmem | hmem
      · exact h.lookup entry hmem
      · rw [List.mem_singleton.mp hmem]
        exact ⟨field, hfield, rfl⟩
    · split at hok
      · cases hok
        exact h
      · split at hok
        · cases hok
          exact ⟨h.lookup, hslots⟩
        · cases hok

theorem Separate.arrange {projection : Projection} (h : Separate context projection) :
    Separate context (arrange context projection) := by
  unfold Merge.arrange
  have hall : ∀ slot ∈ projection.slots.filter (·.key == typenameKey) ++
      projection.slots.filter (·.key != typenameKey), slot ∈ projection.slots := by
    intro slot hmem
    rcases List.mem_append.mp hmem with hmem | hmem <;> exact List.mem_of_mem_filter hmem
  dsimp only
  refine List.foldlRecOn _ _ (motive := Separate context) (Separate.empty context projection.name) ?_
  intro arranged harranged slot hmem
  obtain ⟨field, hfield, _⟩ := h.named slot (hall slot hmem)
  rw [Context.getD_fields hfield]
  exact harranged.pushSlot hdraft hfields hfield

theorem collected_sound {owner : TypeId} {merged : Merged} (h : fields context owner = .ok merged) :
    ∃ collected, Sound context collected ∧
      merged = { collected with projection := arrange context collected.projection } :=
  collected_of_fields hdraft hfields
    ⟨fun _ hmem => absurd hmem List.not_mem_nil, Separate.empty context _⟩
    (fun hfield _ hstate hnext => Sound.addField hdraft hfields hstate hfield hnext) h

/-- Merging yields visible fields and slots as they should be. -/
theorem fields_sound {owner : TypeId} {merged : Merged} (h : fields context owner = .ok merged) :
    Sound context merged := by
  obtain ⟨collected, hsound, rfl⟩ := collected_sound hdraft hfields h
  exact ⟨hsound.lookup, hsound.slots.arrange hdraft hfields⟩

theorem typename_own {owner : TypeId} {merged : Merged} (h : fields context owner = .ok merged) :
    TypenameOwn context owner merged := by
  obtain ⟨collected, hown, rfl⟩ := collected_of_fields hdraft hfields
    (fun _ hmem => absurd hmem List.not_mem_nil)
    (fun hfield hdeclaring hstate hnext => TypenameOwn.addField hstate hfield hdeclaring hnext) h
  exact hown

end

end Merge

end GraphQuery
