import GraphQuery.Proofs.Schema.Slot

/-! Offered fields. What a type shows is folded from the fields that its sources offer. The first one of a
name is shown, each one with a place in plans gets a slot, and the fold comes to its end if and only if each
one is compatible with the first of its name. -/

namespace GraphQuery.Merge

open Completion (FieldsOf)

/-- The field at a place. -/
def Context.field (context : Context) (id : FieldId) : Field :=
  context.fields.getD id default

theorem Context.field_eq {context : Context} {id : FieldId} {field : Field}
    (h : context.fields[id]? = some field) : context.field id = field :=
  Context.getD_fields h

/-- The fields of a source that it offers to a type: all but the one that names the source. -/
def offeredBy (context : Context) (owner source : TypeId) : List FieldId :=
  (context.draft.type source).fields.filter fun id =>
    !((context.field id).isTypename && source != owner)

/-- The fields that the sources of a type offer, those with precedence first. -/
def offered (context : Context) (owner : TypeId) : List FieldId :=
  (sources context owner).flatMap (offeredBy context owner)

/-- The first of some fields that bears a name. -/
def firstOf (context : Context) (ids : List FieldId) (name : String) : Option FieldId :=
  ids.find? fun id => (context.field id).name == name

/-- Each of some fields is compatible with the first one of its name. -/
def Led (context : Context) (ids : List FieldId) : Prop :=
  ∀ id ∈ ids, ∃ first, firstOf context ids (context.field id).name = some first ∧
    compatible context (context.field first) (context.field id) = true

/-- Merges fields into a type one after another. -/
def collect (context : Context) (owner : TypeId) (ids : List FieldId) : Except SchemaError Merged :=
  ids.foldlM (addField context owner owner) ⟨[], .empty (context.nameOf owner)⟩

section

variable {context : Context} {owner : TypeId}

theorem addSource_eq (merged : Merged) (source : TypeId) : addSource context owner merged source =
    (offeredBy context owner source).foldlM (addField context owner owner) merged := by
  rw [addSource, offeredBy, List.foldlM_filter]
  congr 1
  funext merged id
  cases hforeign : (context.field id).isTypename && source != owner with
  | true => exact if_pos hforeign
  | false =>
      have hown : ((context.field id).isTypename && owner != owner) = false := by simp
      unfold Context.field at hforeign hown
      simp only [addField, hforeign, hown]
      rfl

theorem fields_eq : fields context owner =
    (collect context owner (offered context owner)).map fun merged =>
      { merged with projection := arrange context merged.projection } := by
  have hfold (sources : List TypeId) (start : Merged) : sources.foldlM (addSource context owner) start =
      (sources.flatMap (offeredBy context owner)).foldlM (addField context owner owner) start := by
    induction sources generalizing start with
    | nil => rfl
    | cons source rest ih =>
        rw [List.foldlM_cons, List.flatMap_cons, List.foldlM_append, addSource_eq]
        exact congrArg _ (funext ih)
  rw [fields, hfold, ← offered, ← collect]
  cases collect context owner (offered context owner) <;> rfl

/-! ### The first field of a name -/

variable {ids before : List FieldId} {id : FieldId} {name : String}

theorem firstOf_mem (h : firstOf context ids name = some id) : id ∈ ids ∧ (context.field id).name = name :=
  ⟨List.mem_of_find?_eq_some h, by simpa using List.find?_some h⟩

theorem firstOf_isSome (h : id ∈ ids) : ∃ first, firstOf context ids (context.field id).name = some first := by
  rw [← Option.isSome_iff_exists, firstOf, List.find?_isSome]
  exact ⟨id, h, beq_self_eq_true _⟩

theorem firstOf_concat : firstOf context (before ++ [id]) name =
    (firstOf context before name).or (if (context.field id).name = name then some id else none) := by
  rw [firstOf, List.find?_append, List.find?_cons, List.find?_nil]
  simp only [firstOf]
  split <;> simp_all

theorem compatible_refl (context : Context) (field : Field) : compatible context field field = true := by
  simp [compatible]

/-! ### The fold -/

/-- What has been merged of some fields. -/
structure Folded (context : Context) (ids : List FieldId) (merged : Merged) : Prop where
  lookup : ∀ name, merged.lookup.lookup name = firstOf context ids name
  slots : ∀ id, (merged.projection.slotFor? id).isSome = true ↔
    id ∈ ids ∧ (context.field id).isPost = false
  led : Led context ids

theorem slotFor?_isSome_iff {projection : Projection} {id : FieldId} :
    (projection.slotFor? id).isSome = true ↔ ∃ slot ∈ projection.slots, slot.field = id := by
  simp only [Projection.slotFor?, List.find?_isSome, beq_iff_eq]

theorem slotFor?_push (projection : Projection) (name declaringName : String) (field : FieldId)
    (declaring : TypeId) (typeName : String) (isList : Bool) (other : FieldId) :
    ((projection.push name declaringName field declaring typeName isList).slotFor? other).isSome = true ↔
      (projection.slotFor? other).isSome = true ∨ other = field := by
  unfold Projection.push
  split
  · next hknown =>
      constructor
      · exact Or.inl
      · rintro (hother | rfl)
        · exact hother
        · exact hknown
  · simp only [Projection.slotFor?, List.find?_append, Option.isSome_or, Bool.or_eq_true, List.find?_isSome,
      List.mem_singleton, exists_eq_left, beq_iff_eq]
    exact or_congr_right eq_comm

theorem slotFor?_pushSlot (projection : Projection) (field : Field) (other : FieldId) :
    ((pushSlot context projection field).slotFor? other).isSome = true ↔
      (projection.slotFor? other).isSome = true ∨ other = field.id ∧ field.isPost = false := by
  unfold pushSlot
  split
  · next hpost => simp [hpost]
  · next hpost => simp [slotFor?_push, hpost]

theorem Led.concat (h : Led context before)
    (hid : ∃ first, firstOf context (before ++ [id]) (context.field id).name = some first ∧
      compatible context (context.field first) (context.field id) = true) : Led context (before ++ [id]) := by
  intro other hmem
  rcases List.mem_append.mp hmem with hmem | hmem
  · obtain ⟨first, hfirst, hcompatible⟩ := h other hmem
    exact ⟨first, by rw [firstOf_concat, hfirst, Option.some_or], hcompatible⟩
  · rw [List.mem_singleton.mp hmem]
    exact hid

theorem Led.of_concat (h : Led context (before ++ [id])) : Led context before := by
  intro other hmem
  obtain ⟨first, hfirst⟩ := @firstOf_isSome context _ _ hmem
  obtain ⟨same, hsame, hcompatible⟩ := h other (List.mem_append_left _ hmem)
  rw [firstOf_concat, hfirst, Option.some_or] at hsame
  cases hsame
  exact ⟨first, hfirst, hcompatible⟩

/-- The field of a new name is shown. -/
theorem Folded.concat_new {merged : Merged} (h : Folded context before merged) (hid : (context.field id).id = id)
    (hnew : merged.lookup.lookup (context.field id).name = none) :
    Folded context (before ++ [id]) ⟨merged.lookup ++ [((context.field id).name, id)],
      pushSlot context merged.projection (context.field id)⟩ where
  lookup name := by
    rw [List.lookup_append, h.lookup, firstOf_concat, Keyed.lookup_entry, List.lookup_nil]
    simp only [eq_comm]
  slots other := by
    rw [slotFor?_pushSlot, h.slots, hid, List.mem_append, List.mem_singleton, or_and_right]
    exact or_congr_right (and_congr_right fun heq => by rw [heq])
  led := by
    refine h.led.concat ⟨id, ?_, compatible_refl context _⟩
    rw [firstOf_concat, ← h.lookup, hnew, if_pos rfl, Option.none_or]

/-- A field of a name that is there only gets a slot. -/
theorem Folded.concat_known {merged : Merged} (h : Folded context before merged)
    (hid : (context.field id).id = id) {first : FieldId}
    (hfirst : merged.lookup.lookup (context.field id).name = some first)
    (hcompatible : compatible context (context.field first) (context.field id) = true) :
    Folded context (before ++ [id])
      { merged with projection := pushSlot context merged.projection (context.field id) } where
  lookup name := by
    change merged.lookup.lookup name = _
    rw [h.lookup, firstOf_concat]
    split
    · next heq => rw [← heq, ← h.lookup, hfirst, Option.some_or]
    · rw [Option.or_none]
  slots other := by
    rw [slotFor?_pushSlot, h.slots, hid, List.mem_append, List.mem_singleton, or_and_right]
    exact or_congr_right (and_congr_right fun heq => by rw [heq])
  led := by
    refine h.led.concat ⟨first, ?_, hcompatible⟩
    rw [firstOf_concat, ← h.lookup, hfirst, Option.some_or]

/-- A field that is there itself changes nothing. -/
theorem Folded.concat_same {merged : Merged} (h : Folded context before merged)
    (hmem : id ∈ before) : Folded context (before ++ [id]) merged where
  lookup name := by
    obtain ⟨first, hfirst⟩ := @firstOf_isSome context _ _ hmem
    rw [h.lookup, firstOf_concat]
    split
    · next heq => rw [← heq, hfirst, Option.some_or]
    · rw [Option.or_none]
  slots other := by
    rw [h.slots, List.mem_append, List.mem_singleton, or_iff_left_of_imp]
    rintro rfl
    exact hmem
  led := by
    obtain ⟨first, hfirst, hcompatible⟩ := h.led id hmem
    exact h.led.concat ⟨first, by rw [firstOf_concat, hfirst, Option.some_or], hcompatible⟩

theorem addField_own (merged : Merged) : addField context owner owner merged id =
    match merged.lookup.lookup (context.field id).name with
    | none => .ok ⟨merged.lookup ++ [((context.field id).name, id)],
        pushSlot context merged.projection (context.field id)⟩
    | some known =>
      if known == id then .ok merged
      else if compatible context (context.field known) (context.field id) then
        .ok { merged with projection := pushSlot context merged.projection (context.field id) }
      else
        .error (.fieldTypeConflict (context.nameOf owner) (context.field id).name
          (describe context (context.field known)) (describe context (context.field id))) :=
  if_neg (by simp)

/-- One more field is merged if and only if it is compatible with the first one of its name. -/
theorem Folded.addField {merged : Merged} (h : Folded context before merged)
    (hid : (context.field id).id = id) :
    (∃ next, addField context owner owner merged id = .ok next ∧ Folded context (before ++ [id]) next) ∨
      (∃ error, addField context owner owner merged id = .error error) ∧ ¬Led context (before ++ [id]) := by
  rw [addField_own]
  cases hlookup : merged.lookup.lookup (context.field id).name with
  | none => exact Or.inl ⟨_, rfl, h.concat_new hid hlookup⟩
  | some known =>
      have hfirst := (h.lookup _).symm.trans hlookup
      dsimp only
      by_cases hsame : known = id
      · rw [if_pos (beq_iff_eq.mpr hsame)]
        exact Or.inl ⟨_, rfl, h.concat_same (hsame ▸ (firstOf_mem hfirst).1)⟩
      · rw [if_neg (by rwa [beq_iff_eq])]
        cases hcompatible : compatible context (context.field known) (context.field id) with
        | true => exact Or.inl ⟨_, rfl, h.concat_known hid hlookup hcompatible⟩
        | false =>
            refine Or.inr ⟨⟨_, rfl⟩, fun hled => ?_⟩
            obtain ⟨first, hknown, htrue⟩ := hled id (List.mem_append_right _ List.mem_cons_self)
            rw [firstOf_concat, hfirst, Option.some_or] at hknown
            cases hknown
            exact Bool.false_ne_true (hcompatible.symm.trans htrue)

/-- Fields are merged if and only if each is compatible with the first one of its name. -/
theorem collect_ok (hids : ∀ id ∈ ids, (context.field id).id = id) :
    (∃ merged, collect context owner ids = .ok merged ∧ Folded context ids merged) ∨
      (∃ error, collect context owner ids = .error error) ∧ ¬Led context ids := by
  induction ids using List.reverseRecOn with
  | nil =>
      refine Or.inl ⟨_, rfl, fun _ => rfl, fun id => ?_, fun _ hmem => absurd hmem List.not_mem_nil⟩
      simp [Projection.slotFor?, Projection.empty]
  | append_singleton before id ih =>
      rw [List.forall_mem_append, List.forall_mem_singleton] at hids
      have hfold : collect context owner (before ++ [id]) =
          collect context owner before >>= fun merged => addField context owner owner merged id := by
        rw [collect, List.foldlM_append]
        exact congrArg _ (funext fun merged => bind_pure _)
      rw [hfold]
      rcases ih hids.1 with ⟨merged, hmerged, hfolded⟩ | ⟨⟨error, herror⟩, hnot⟩
      · rw [hmerged]
        exact hfolded.addField hids.2
      · rw [herror]
        exact Or.inr ⟨⟨error, rfl⟩, fun hled => hnot hled.of_concat⟩

/-- The visible fields of a type differ in their names. -/
theorem nodup_lookup {merged : Merged} (h : collect context owner ids = .ok merged) :
    (merged.lookup.map Prod.fst).Nodup := by
  refine Outcome.foldlM_preserves (fun merged : Merged => (merged.lookup.map Prod.fst).Nodup) ?_ ?_ h
  · intro id _ state next hstate hnext
    rw [addField_own] at hnext
    split at hnext
    · next hnew =>
        cases hnext
        rw [List.map_append, List.nodup_append_comm]
        refine List.nodup_cons.mpr ⟨fun hmem => ?_, hstate⟩
        obtain ⟨entry, hentry, hname⟩ := List.mem_map.mp hmem
        exact bne_iff_ne.mp (List.lookup_eq_none_iff.mp hnew entry hentry) hname.symm
    · split at hnext
      · cases hnext
        exact hstate
      · split at hnext
        · cases hnext
          exact hstate
        · cases hnext
  · exact List.nodup_nil

/-- Arranging keeps a slot for each field that has one. -/
theorem Folded.arrange {merged : Merged} (h : Folded context ids merged)
    (hids : ∀ id ∈ ids, (context.field id).id = id) :
    Folded context ids { merged with projection := arrange context merged.projection } where
  lookup := h.lookup
  led := h.led
  slots other := by
    have hpushed (slots : List Slot) (start : Projection) :
        ((slots.foldl (fun arranged slot => pushSlot context arranged (context.field slot.field)) start).slotFor?
          other).isSome = true ↔ (start.slotFor? other).isSome = true ∨
            ∃ slot ∈ slots, other = (context.field slot.field).id ∧ (context.field slot.field).isPost = false := by
      induction slots generalizing start with
      | nil => simp
      | cons slot rest ih => rw [List.foldl_cons, ih, slotFor?_pushSlot, List.exists_mem_cons_iff, or_assoc]
    have hmem {slot : Slot} (hslot : slot ∈ merged.projection.slots) :
        slot.field ∈ ids ∧ (context.field slot.field).isPost = false := by
      rw [← h.slots, slotFor?_isSome_iff]
      exact ⟨slot, hslot, rfl⟩
    change ((Merge.arrange context merged.projection).slotFor? other).isSome = true ↔ _
    rw [Merge.arrange, ← h.slots]
    refine (hpushed _ _).trans ?_
    rw [Projection.slotFor?, Projection.empty, List.find?_nil, Option.isSome_none, or_iff_right Bool.false_ne_true,
      Projection.slotFor?, List.find?_isSome]
    refine exists_congr fun slot => ?_
    have hall : slot ∈ merged.projection.slots.filter (·.key == typenameKey) ++
        merged.projection.slots.filter (·.key != typenameKey) ↔ slot ∈ merged.projection.slots := by
      rw [List.mem_append, List.mem_filter, List.mem_filter, ← and_or_left]
      simp [em]
    rw [hall]
    refine and_congr_right fun hslot => ?_
    obtain ⟨hknown, hplan⟩ := hmem hslot
    rw [hids _ hknown, and_iff_left hplan, beq_iff_eq, eq_comm]

theorem mem_offered_iff : id ∈ offered context owner ↔
    ∃ source ∈ sources context owner, id ∈ (context.draft.type source).fields ∧
      ((context.field id).isTypename = true → source = owner) := by
  rw [offered, List.mem_flatMap]
  refine exists_congr fun source => and_congr_right fun _ => ?_
  rw [offeredBy, List.mem_filter]
  cases (context.field id).isTypename <;> simp

section

variable (hdraft : context.draft.Consistent) (hfields : FieldsOf context.draft context.fields)

include hdraft hfields

/-- A type owns the fields at their places that it declares. -/
theorem field_own {source : TypeId} (hmem : id ∈ (context.draft.type source).fields) :
    (context.field id).id = id ∧ (context.field id).declaring = source := by
  obtain ⟨field, hfield, hdeclaring⟩ := field_of_mem_own hdraft hfields hmem
  rw [Context.field_eq hfield]
  obtain ⟨_, _, _, _, rfl⟩ := hfields.declared id field hfield
  exact ⟨rfl, hdeclaring⟩

theorem offered_id (hmem : id ∈ offered context owner) : (context.field id).id = id := by
  obtain ⟨source, _, hown, _⟩ := mem_offered_iff.mp hmem
  exact (field_own hdraft hfields hown).1

/-- The fields of a type are merged if and only if each one offered is compatible with the first of its
name, and then the first ones are shown. -/
theorem fields_ok : (∃ merged, fields context owner = .ok merged ∧
      Folded context (offered context owner) merged) ∨
    (∃ error, fields context owner = .error error) ∧ ¬Led context (offered context owner) := by
  have hids : ∀ id ∈ offered context owner, (context.field id).id = id :=
    fun _ => offered_id hdraft hfields
  rw [fields_eq]
  rcases @collect_ok context owner _ hids with ⟨merged, hmerged, hfolded⟩ | ⟨⟨error, herror⟩, hnot⟩
  · rw [hmerged]
    exact Or.inl ⟨_, rfl, hfolded.arrange hids⟩
  · rw [herror]
    exact Or.inr ⟨⟨error, rfl⟩, hnot⟩

end

end

end GraphQuery.Merge
