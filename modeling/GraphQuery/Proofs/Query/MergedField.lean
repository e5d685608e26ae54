import GraphQuery.Proofs.Query.Listing
import GraphQuery.Proofs.Query.Twin

/-! Merged fields. A type shows one field of each name that its concrete subtypes declare. Selected without
a fragment, this field answers for the rows that have it, as a fragment on their own type does, and it is
null on all others. -/

namespace GraphQuery

namespace Schema

/-- The selections that a member and the same member inside a fragment on a concrete subtype bind to. -/
theorem Declares.fragmented {schema : Schema} (h : schema.Completed) {owner actual : TypeId} {name : String}
    {own shown : Field} (howner : owner < schema.types.length) (hcomposite : (schema.type owner).isLeaf = false)
    (hown : schema.Declares owner actual name own) (hshown : schema.Shows owner name shown)
    (htarget : shown.target = own.target) (hisList : shown.isList = own.isList) (alias? : Option String)
    (arguments arguments' : Arguments) (children : List BoundSelection) :
    schema.Fragmented owner actual ⟨name, alias?, shown.id, none, arguments, children⟩
      ⟨name, alias?, own.id, some actual, arguments', children⟩ := by
  have hschema := h.wellFormed
  have hshownField := field_eq (hschema.field_of_lookup hshown.lookup)
  have hownField := field_eq (hschema.field_of_lookup hown.lookup)
  exact
    { outputName := rfl
      children := rfl
      isMember := hshownField.symm ▸ hshown.isMember
      isMember' := hownField.symm ▸ hown.isMember
      target := by rw [hshownField, hownField, htarget]
      isList := by rw [hshownField, hownField, hisList]
      descendant := hown.descendant
      carries := ⟨congrArg Field.id hshownField, Or.inr (Or.inr (hshown.slot h howner hcomposite))⟩
      carries' := ⟨congrArg Field.id hownField, Or.inr (Or.inr (hown.slot h howner hcomposite))⟩
      bare := rfl
      condition := rfl
      declaring_lt := by
        rw [hshownField]
        exact h.hierarchical.declaring_lt _ (List.mem_of_getElem? (hschema.field_of_lookup hshown.lookup))
      declaring := hownField.symm ▸ hown.declaring }

end Schema

/-- A concrete subtype declares a member with the target and the cardinality of the one that a type shows. -/
structure Schema.DeclaresLike (schema : Schema) (owner actual : TypeId) (name : String) (shown own : Field) : Prop
    extends schema.Declares owner actual name own where
  target : shown.target = own.target
  isList : shown.isList = own.isList

/-- Rows of a concrete subtype have the field that a type shows, as the member that they declare: the
subtype declares the field itself, or inherits it and reads the same member. -/
def Schema.Native (schema : Schema) (actual : TypeId) (shown own : Field) : Prop :=
  shown.declaring = actual ∨ schema.isSubtype actual shown.declaring = true ∧ own.resolver = shown.resolver

namespace Listing

namespace Holds

variable {listing : Listing} {rows : List Value} (h : listing.Holds rows) {alias? : Option String} {name : String}
  {supplied : List (String × Literal)} {selections : List Selection} {actual : TypeId} {shown own : Field}
  {value : Value}

include h

theorem bind_direct (hshown : listing.schema.Shows listing.field.target name shown) {level : List BoundSelection} :
    listing.binder.bindSelections listing.spread listing.field.target none listing.depth
        [.field alias? name supplied selections] = .ok level ↔
      ∃ arguments children,
        listing.binder.Binds listing.spread listing.depth supplied selections shown arguments children ∧
          level = [⟨name, alias?, shown.id, none, arguments, BoundSelection.merge children⟩] :=
  Binder.bindSelections_field_iff
    (Binder.resolveField_of_slot hshown.lookup (hshown.slot h.completed h.target_lt h.composite))

theorem bind_inside (hown : listing.schema.Declares listing.field.target actual name own)
    {level : List BoundSelection} :
    listing.binder.bindSelections listing.spread listing.field.target none listing.depth
        [listing.inside actual (.field alias? name supplied selections)] = .ok level ↔
      ∃ arguments children,
        listing.binder.Binds listing.spread listing.depth supplied selections own arguments children ∧
          level = [⟨name, alias?, own.id, some actual, arguments, BoundSelection.merge children⟩] := by
  have hschema := h.completed.wellFormed
  obtain ⟨hactual, hne, _⟩ := Schema.of_descendant h.completed h.target_lt hown.descendant
  have htype : listing.binder.conditionType (listing.schema.type actual).name = .ok actual := by
    have hnamed : listing.binder.schema.typeNamed? (listing.schema.type actual).name = _ :=
      hschema.typeNamed (Schema.type_mem hactual)
    rw [Binder.conditionType, hnamed]
    exact congrArg Except.ok (hschema.id_of_lt hactual)
  have hkept : Binder.kept listing.field.target (some actual) = some actual := by
    rw [Binder.kept, Option.filter_some, if_pos (bne_iff_ne.mpr hne)]
  rw [inside, Binder.bindSelections_inline htype, Binder.bindSelections_field_iff, hkept]
  rw [hkept]
  exact Binder.resolveField_of_slot hown.lookup (hown.slot h.completed h.target_lt h.composite)

/-- Where the fragment is shown and the member takes the arguments as well, both selections bind, and to the
same children. -/
theorem exists_fragmented (hshown : listing.schema.Shows listing.field.target name shown)
    (hown : listing.schema.DeclaresLike listing.field.target actual name shown own)
    (haccepted : ∃ arguments, listing.binder.bindArguments shown supplied = .ok arguments)
    (hinside : listing.shown [listing.inside actual (.field alias? name supplied selections)] = .ok value) :
    ∃ direct fragment,
      listing.binder.bindSelections listing.spread listing.field.target none listing.depth
        [.field alias? name supplied selections] = .ok [direct] ∧
      listing.binder.bindSelections listing.spread listing.field.target none listing.depth
        [listing.inside actual (.field alias? name supplied selections)] = .ok [fragment] ∧
      listing.schema.Fragmented listing.field.target actual direct fragment ∧
      listing.schema.field direct.field = shown ∧ listing.schema.field fragment.field = own ∧
      direct.outputName = alias?.getD name := by
  obtain ⟨level, hlevel, _⟩ := Outcome.bind_ok_iff.mp hinside
  obtain ⟨arguments', children, hbinds, rfl⟩ := (h.bind_inside hown.toDeclares).mp hlevel
  obtain ⟨arguments, harguments⟩ := haccepted
  have hinside : listing.binder.bindInside listing.spread shown.target listing.depth selections = .ok children := by
    rw [hown.target]
    exact hbinds.inside
  refine ⟨_, _, (h.bind_direct hshown).mpr ⟨arguments, children, ⟨hbinds.shallow, harguments, hinside⟩, rfl⟩,
    hlevel, hown.toDeclares.fragmented h.completed h.target_lt h.composite hshown hown.target hown.isList alias?
      arguments arguments' (BoundSelection.merge children), ?_, ?_, rfl⟩
  · exact Schema.field_eq (h.completed.wellFormed.field_of_lookup hshown.lookup)
  · exact Schema.field_eq (h.completed.wellFormed.field_of_lookup hown.lookup)

/-- On a row of a concrete subtype that has the member shown, the fragment shows the same. -/
theorem rendered_native (hshown : listing.schema.Shows listing.field.target name shown)
    (hown : listing.schema.Declares listing.field.target actual name own)
    (hnative : listing.schema.Native actual shown own) {direct fragment : BoundSelection}
    (hfragmented : listing.schema.Fragmented listing.field.target actual direct fragment)
    (hdirect : listing.schema.field direct.field = shown) (hfragment : listing.schema.field fragment.field = own)
    {row : Value} (hshape : row.shape? = some (listing.schema.type actual).shape.name) (out : Members) :
    (listing.rowContext row).rendered listing.field.target [direct] = .ok out ↔
      (listing.rowContext row).rendered listing.field.target [fragment] = .ok out := by
  have hsame : listing.schema.isSubtype actual shown.declaring = true ∧ own.resolver = shown.resolver := by
    rcases hnative with hdeclaring | hinherits
    · rw [hdeclaring, Schema.isSubtype, beq_self_eq_true, Bool.true_or,
        hown.eq_shown h.completed hshown.lookup hdeclaring]
      exact ⟨rfl, rfl⟩
    · exact hinherits
  obtain ⟨member, hresolver⟩ := Field.resolver_of_isMember hshown.isMember
  rw [← hdirect, ← hfragment] at hsame
  rw [← hdirect] at hresolver
  exact @RowContext.rendered_of_native (listing.rowContext row) _ _ h.completed h.target_lt _ _ hfragmented hshape
    h.casts hsame.1 member hresolver (hsame.2.trans hresolver) out

/-- What the direct selection and the fragment show of rows of a concrete subtype. -/
theorem objects_of_shown (hshown : listing.schema.Shows listing.field.target name shown)
    (hown : listing.schema.DeclaresLike listing.field.target actual name shown own) {first second : Value}
    (hfirst : listing.shown [.field alias? name supplied selections] = .ok first)
    (hsecond : listing.shown [listing.inside actual (.field alias? name supplied selections)] = .ok second) :
    ∃ objects others, first = .array objects ∧ second = .array others ∧
      objects.length = rows.length ∧ others.length = rows.length ∧
      ∀ (i : Nat) (row : Value), rows[i]? = some row →
        row.shape? = some (listing.schema.type actual).shape.name →
        (listing.schema.Native actual shown own → ∃ value,
          objects[i]? = some (.object [(alias?.getD name, value)]) ∧
            others[i]? = some (.object [(alias?.getD name, value)])) ∧
        (listing.schema.isSubtype actual shown.declaring = false →
          objects[i]? = some (.object [(alias?.getD name, .null)])) := by
  have haccepted : ∃ arguments, listing.binder.bindArguments shown supplied = .ok arguments := by
    obtain ⟨_, hlevel, _⟩ := Outcome.bind_ok_iff.mp hfirst
    obtain ⟨arguments, _, hbinds, _⟩ := (h.bind_direct hshown).mp hlevel
    exact ⟨arguments, hbinds.accepted⟩
  obtain ⟨direct, fragment, hdirect, hfragment, hfragmented, hshownField, hownField, hname⟩ :=
    h.exists_fragmented hshown hown haccepted hsecond
  obtain ⟨_, objects, hobjects, rfl⟩ := (h.shown_single_iff hdirect).mp hfirst
  obtain ⟨_, others, hothers, rfl⟩ := (h.shown_single_iff hfragment).mp hsecond
  refine ⟨objects, others, rfl, rfl, Outcome.length_of_mapM hobjects, Outcome.length_of_mapM hothers, ?_⟩
  intro i row hrow hshape
  obtain ⟨_, hobject, hstep⟩ := Outcome.result_of_mapM hobjects hrow
  obtain ⟨_, hother, hstep'⟩ := Outcome.result_of_mapM hothers hrow
  obtain ⟨out, hout, rfl⟩ := Outcome.map_ok_iff.mp hstep
  obtain ⟨out', hout', rfl⟩ := Outcome.map_ok_iff.mp hstep'
  constructor
  · intro hnative
    have hsame := (h.rendered_native hshown hown.toDeclares hnative hfragmented hshownField hownField hshape
      out).mp hout
    obtain ⟨value, rfl⟩ := @RowContext.rendered_actual (listing.rowContext row) _ _ h.completed h.target_lt _ _
      hfragmented hshape _ hsame
    cases hsame.symm.trans hout'
    rw [← hfragmented.outputName, hname] at hobject hother
    exact ⟨value, hobject, hother⟩
  · intro hforeign
    rw [← hshownField] at hforeign
    have hnull := (@RowContext.rendered_of_foreign (listing.rowContext row) _ _ h.completed h.target_lt _ _
      hfragmented hshape h.casts hforeign).1 out hout
    rw [hobject, hnull, hname]

/-- Where each row is shown inside a fragment on its own type, so it is by the direct selection. -/
theorem exists_shown_direct (hshown : listing.schema.Shows listing.field.target name shown) (hne : rows ≠ [])
    (haccepted : ∃ arguments, listing.binder.bindArguments shown supplied = .ok arguments)
    (hrows : ∀ row ∈ rows, ∃ actual own,
      listing.schema.DeclaresLike listing.field.target actual name shown own ∧
      row.shape? = some (listing.schema.type actual).shape.name ∧
      (listing.schema.Native actual shown own ∨ listing.schema.isSubtype actual shown.declaring = false) ∧
      ∃ second, listing.shown [listing.inside actual (.field alias? name supplied selections)] = .ok second) :
    ∃ first, listing.shown [.field alias? name supplied selections] = .ok first := by
  have hrow : ∀ row ∈ rows, ∃ direct out,
      listing.binder.bindSelections listing.spread listing.field.target none listing.depth
        [.field alias? name supplied selections] = .ok [direct] ∧
      (listing.rowContext row).rendered listing.field.target [direct] = .ok out := by
    intro row hmem
    obtain ⟨actual, own, hown, hshape, hkind, second, hsecond⟩ := hrows row hmem
    obtain ⟨direct, fragment, hdirect, hfragment, hfragmented, hshownField, hownField, _⟩ :=
      h.exists_fragmented hshown hown haccepted hsecond
    obtain ⟨_, others, hothers, rfl⟩ := (h.shown_single_iff hfragment).mp hsecond
    obtain ⟨_, _, hobject⟩ := Outcome.ok_of_mapM hothers hmem
    obtain ⟨out, hout, _⟩ := Outcome.map_ok_iff.mp hobject
    rcases hkind with hnative | hforeign
    · exact ⟨direct, out, hdirect,
        (h.rendered_native hshown hown.toDeclares hnative hfragmented hshownField hownField hshape out).mpr hout⟩
    · rw [← hshownField] at hforeign
      exact ⟨direct, _, hdirect, (@RowContext.rendered_of_foreign (listing.rowContext row) _ _ h.completed h.target_lt
        _ _ hfragmented hshape h.casts hforeign).2 ⟨out, hout⟩⟩
  obtain ⟨row, hmem⟩ := List.exists_mem_of_ne_nil rows hne
  obtain ⟨direct, _, hdirect, hout⟩ := hrow row hmem
  have hobjects : ∀ row ∈ rows, ∃ object,
      ((listing.rowContext row).rendered listing.field.target [direct]).map Value.object = .ok object := by
    intro row hmem
    -- binding does not look at rows, so that it is one selection for all of them
    obtain ⟨other, out, hother, hout⟩ := hrow row hmem
    cases hdirect.symm.trans hother
    exact ⟨.object out, Outcome.map_ok_iff.mpr ⟨out, hout, rfl⟩⟩
  choose! object hobject using hobjects
  exact ⟨_, (h.shown_single_iff hdirect).mpr
    ⟨RowContext.exists_recordPlan hout, _, Outcome.mapM_ok_of hobject, rfl⟩⟩

end Holds

/-- Members of concrete subtypes are merged into a type: where it shows one of them, a list of rows can be
asked for it without fragments. On rows of a subtype that has the member which is shown, this is the same as
inside a fragment on that subtype; on rows of any other it is null. -/
theorem merged_field_shown (listing : Listing) {rows : List Value} (h : listing.Holds rows) (alias? : Option String)
    (name : String) (supplied : List (String × Literal)) (selections : List Selection) :
    (∀ actual own, listing.schema.Declares listing.field.target actual name own →
      ∃ shown, listing.schema.lookupField? listing.field.target name = some shown ∧
        (shown.declaring = actual → shown = own)) ∧
    ∀ shown, listing.schema.Shows listing.field.target name shown →
      (∀ actual own, listing.schema.DeclaresLike listing.field.target actual name shown own →
        ∀ direct fragment, listing.shown [.field alias? name supplied selections] = .ok direct →
          listing.shown [listing.inside actual (.field alias? name supplied selections)] = .ok fragment →
          ∃ objects others, direct = .array objects ∧ fragment = .array others ∧
            objects.length = rows.length ∧ others.length = rows.length ∧
            ∀ (i : Nat) (row : Value), rows[i]? = some row →
              row.shape? = some (listing.schema.type actual).shape.name →
              (listing.schema.Native actual shown own → ∃ value,
                objects[i]? = some (.object [(alias?.getD name, value)]) ∧
                  others[i]? = some (.object [(alias?.getD name, value)])) ∧
              (listing.schema.isSubtype actual shown.declaring = false →
                objects[i]? = some (.object [(alias?.getD name, .null)]))) ∧
      (rows ≠ [] → (∃ arguments, listing.binder.bindArguments shown supplied = .ok arguments) →
        (∀ row ∈ rows, ∃ actual own, listing.schema.DeclaresLike listing.field.target actual name shown own ∧
          row.shape? = some (listing.schema.type actual).shape.name ∧
          (listing.schema.Native actual shown own ∨ listing.schema.isSubtype actual shown.declaring = false) ∧
          ∃ fragment,
            listing.shown [listing.inside actual (.field alias? name supplied selections)] = .ok fragment) →
        ∃ direct, listing.shown [.field alias? name supplied selections] = .ok direct) := by
  refine ⟨?_, fun shown hshown => ⟨?_, ?_⟩⟩
  · intro actual own hown
    obtain ⟨shown, hlookup⟩ := hown.exists_shown h.completed h.target_lt h.composite
    exact ⟨shown, hlookup, hown.eq_shown h.completed hlookup⟩
  · intro actual own hown first second hfirst hsecond
    exact h.objects_of_shown hshown hown hfirst hsecond
  · intro hne haccepted hrows
    exact h.exists_shown_direct hshown hne haccepted hrows

end Listing

/-- Declarations of animals of which dogs and cats have a sound each. -/
def Declaration.choir : List Declaration :=
  [.type (.ofKind .interface "Animal"), .type ⟨"Dog", none, none, ["Animal"], .object⟩,
    .type ⟨"Cat", none, none, ["Animal"], .object⟩, .field 8 (.plain "sound" "String"),
    .field 9 (.plain "sound" "String"),
    .field 5 { FieldSpec.plain "animals" "[Animal]" with
      resolver? := some (.plan fun _ _ => .ok (.collection "animals")) }]

/-- The schema of the choir: types 7 to 9 are animals, dogs and cats. -/
def Schema.choir : Schema :=
  ((Draft.start.declareAll Declaration.choir).bind fun draft => draft.complete.1).toOption.get
    (by decide +kernel)

theorem Schema.choir_completed : Schema.choir.Completed :=
  Schema.completed_of_toOption (Option.some_get _).symm

namespace Listing

/-- Rows that stand right below the root of a query. -/
def ofRows (schema : Schema) (field : Field) (rows : List Value) : Listing where
  binder := ⟨schema, [], [], none⟩
  spread _ _ _ := .ok []
  tier := .enumerable
  data? := none
  source := .inProcess
  field := field
  plan := .const (.array rows)
  depth := 2
  nesting := 1

theorem schema_ofRows (schema : Schema) (field : Field) (rows : List Value) :
    (ofRows schema field rows).schema = schema := rfl

theorem field_ofRows (schema : Schema) (field : Field) (rows : List Value) :
    (ofRows schema field rows).field = field := rfl

/-- Animals of the choir. -/
def ofChoir (rows : List Value) : Listing :=
  ofRows .choir (Schema.choir.field 2) rows

theorem schema_ofChoir (rows : List Value) : (ofChoir rows).schema = Schema.choir :=
  schema_ofRows _ _ _

theorem field_ofChoir (rows : List Value) : (ofChoir rows).field = Schema.choir.field 2 :=
  field_ofRows _ _ _

/-- Where the types and fields of the choir stand. -/
theorem choir_places :
    ((Schema.choir.field 2).target = 7 ∧ (Schema.choir.field 2).isList = true ∧
      7 < Schema.choir.types.length ∧ (Schema.choir.type 7).isLeaf = false ∧
      (Schema.choir.type 7).descendants = [8, 9] ∧ Schema.choir.isSubtype 9 8 = false) ∧
    ((Schema.choir.type 7).fields.lookup "sound" = some 0 ∧ (Schema.choir.type 8).fields.lookup "sound" = some 0 ∧
      (Schema.choir.type 9).fields.lookup "sound" = some 1) ∧
    ((Schema.choir.field 0).declaring = 8 ∧ (Schema.choir.field 1).declaring = 9) ∧
    ((Schema.choir.field 0).isMember = true ∧ (Schema.choir.field 1).isMember = true) ∧
    (Schema.choir.field 0).target = (Schema.choir.field 1).target ∧
    (Schema.choir.field 0).isList = (Schema.choir.field 1).isList ∧
    (Schema.choir.type 8).shape.name = "Dog" ∧ (Schema.choir.type 9).shape.name = "Cat" ∧
    Schema.choir.fields.all (fun field => field.name != "sound" || !Schema.choir.isSubtype 7 field.declaring) := by
  decide +kernel

theorem holds_choir (rows : List Value) : (ofChoir rows).Holds rows := by
  obtain ⟨⟨htarget, hisList, hlt, hcomposite, _⟩, _⟩ := choir_places
  constructor
  · rw [schema_ofChoir]
    exact Schema.choir_completed
  · rwa [field_ofChoir, schema_ofChoir, htarget]
  · rwa [field_ofChoir, schema_ofChoir, htarget]
  · rwa [field_ofChoir]
  · rfl
  · rfl

/-- Animals show the sound of dogs; dogs and cats declare their own. -/
theorem choir_sounds (rows : List Value) :
    let listing := ofChoir rows
    listing.schema.Shows listing.field.target "sound" (Schema.choir.field 0) ∧
      listing.schema.DeclaresLike listing.field.target 8 "sound" (Schema.choir.field 0) (Schema.choir.field 0) ∧
      listing.schema.DeclaresLike listing.field.target 9 "sound" (Schema.choir.field 0) (Schema.choir.field 1) := by
  obtain ⟨⟨htarget, _, _, _, hdescendants, _⟩, ⟨hanimal, hdog, hcat⟩, ⟨hdogs, hcats⟩,
    ⟨hmember, hmember'⟩, hsame, hisList, _⟩ := choir_places
  intro listing
  rw [field_ofChoir, schema_ofChoir, htarget]
  have hlookup {id : TypeId} {field : FieldId} (h : (Schema.choir.type id).fields.lookup "sound" = some field) :
      Schema.choir.lookupField? id "sound" = some (Schema.choir.field field) := by
    rw [Schema.lookupField?, h]
    rfl
  have hmem {id : TypeId} (h : id ∈ [8, 9]) : id ∈ (Schema.choir.type 7).descendants := hdescendants.symm ▸ h
  exact ⟨⟨hlookup hanimal, hmember⟩, ⟨⟨⟨hlookup hdog, hmember⟩, hmem (by decide), hdogs⟩, rfl, rfl⟩,
    ⟨⟨⟨hlookup hcat, hmember'⟩, hmem (by decide), hcats⟩, hsame, hisList⟩⟩

/-- A dog and a cat. -/
def pair : List Value :=
  [.animal "Dog" "Rex" [("sound", .string "woof")], .animal "Cat" "Tom" [("sound", .string "meow")]]

theorem pair_shapes (rows : List Value) :
    (Value.animal "Dog" "Rex" [("sound", .string "woof")]).shape? = some ((ofChoir rows).schema.type 8).shape.name ∧
    (Value.animal "Cat" "Tom" [("sound", .string "meow")]).shape? =
      some ((ofChoir rows).schema.type 9).shape.name := by
  obtain ⟨_, _, _, _, _, _, hdog, hcat, _⟩ := choir_places
  rw [schema_ofChoir, hdog, hcat]
  decide

/-- The sounds that are shown of a list of animals. -/
def sounds : Value → List (Option String)
  | .array animals => animals.map fun animal => (animal.get? "sound").bind Value.asString?
  | _ => []

/-- Asked for their sounds without fragments, the dog shows its own, and the cat shows none. -/
theorem pair_shown : let listing := ofChoir pair
    ∃ objects others value,
      listing.shown [.field none "sound" [] []] = .ok (.array objects) ∧
      listing.shown [listing.inside 8 (.field none "sound" [] [])] = .ok (.array others) ∧
      objects[0]? = some (.object [("sound", value)]) ∧ others[0]? = some (.object [("sound", value)]) ∧
      objects[1]? = some (.object [("sound", .null)]) := by
  intro listing
  obtain ⟨hshown, hdog, hcat⟩ := choir_sounds pair
  have hok : (listing.shown [listing.inside 8 (.field none "sound" [] [])]).isOk = true ∧
      (listing.shown [listing.inside 9 (.field none "sound" [] [])]).isOk = true ∧
      (listing.binder.bindArguments (Schema.choir.field 0) []).isOk = true := by
    decide +kernel
  obtain ⟨hdogs, hcats, haccepted⟩ := hok
  obtain ⟨dogs, hdogs⟩ := Outcome.exists_of_isOk hdogs
  obtain ⟨cats, hcats⟩ := Outcome.exists_of_isOk hcats
  obtain ⟨⟨_, _, _, _, _, hapart⟩, _, ⟨hnative, _⟩, _, _, _, _⟩ := choir_places
  have hforeign : listing.schema.isSubtype 9 (Schema.choir.field 0).declaring = false := by
    rwa [schema_ofChoir, hnative]
  obtain ⟨hdogShape, hcatShape⟩ := pair_shapes pair
  obtain ⟨hboth, hdirect⟩ := (merged_field_shown listing (holds_choir pair) none "sound" [] []).2 _ hshown
  obtain ⟨direct, hdirect⟩ := hdirect (List.cons_ne_nil _ _) (Outcome.exists_of_isOk haccepted) (by
    intro row hmem
    rcases List.mem_cons.mp hmem with rfl | hmem
    · exact ⟨8, _, hdog, hdogShape, Or.inl (Or.inl hnative), dogs, hdogs⟩
    · cases List.mem_singleton.mp hmem
      exact ⟨9, _, hcat, hcatShape, Or.inr hforeign, cats, hcats⟩)
  obtain ⟨objects, others, rfl, rfl, _, _, hdogRows⟩ := hboth 8 _ hdog _ _ hdirect hdogs
  obtain ⟨objects', _, hsame, _, _, _, hcatRows⟩ := hboth 9 _ hcat _ _ hdirect hcats
  cases hsame
  obtain ⟨value, hobject, hother⟩ := (hdogRows 0 _ rfl hdogShape).1 (Or.inl hnative)
  exact ⟨objects, others, value, hdirect, hdogs, hobject, hother, (hcatRows 1 _ rfl hcatShape).2 hforeign⟩

/-- Dogs and cats declare a sound, and animals do not; without a fragment, a cat does not show the sound
that it shows inside one. -/
theorem cat_shows_no_sound : let listing := ofChoir pair
    listing.Holds pair ∧
    (∀ field ∈ listing.schema.fields, field.name = "sound" →
      listing.schema.isSubtype listing.field.target field.declaring = false) ∧
    (∀ actual ∈ (listing.schema.type listing.field.target).descendants, ∃ own,
      listing.schema.DeclaresLike listing.field.target actual "sound" (Schema.choir.field 0) own) ∧
    (∀ row ∈ pair, ∃ actual ∈ (listing.schema.type listing.field.target).descendants,
      row.shape? = some (listing.schema.type actual).shape.name) ∧
    pair[1]?.bind Value.shape? = some (listing.schema.type 9).shape.name ∧
    ∃ objects others,
      listing.shown [.field none "sound" [] []] = .ok (.array objects) ∧
      listing.shown [listing.inside 9 (.field none "sound" [] [])] = .ok (.array others) ∧
      objects[1]? ≠ others[1]? := by
  intro listing
  obtain ⟨hshown, hdog, hcat⟩ := choir_sounds pair
  have hsounds : (listing.shown [.field none "sound" [] []]).toOption.map sounds = some [some "woof", none] ∧
      (listing.shown [listing.inside 9 (.field none "sound" [] [])]).toOption.map sounds =
        some [none, some "meow"] := by
    decide +kernel
  obtain ⟨⟨htarget, _, _, _, hdescendants, _⟩, _, _, _, _, _, _, _, habove⟩ := choir_places
  obtain ⟨hdogShape, hcatShape⟩ := pair_shapes pair
  have hdescendants : (listing.schema.type listing.field.target).descendants = [8, 9] := by
    rwa [schema_ofChoir, field_ofChoir, htarget]
  obtain ⟨first, hfirst, hwoof⟩ := Option.map_eq_some_iff.mp hsounds.1
  obtain ⟨second, hsecond, hmeow⟩ := Option.map_eq_some_iff.mp hsounds.2
  have hfirst := Outcome.ok_of_toOption hfirst
  have hsecond := Outcome.ok_of_toOption hsecond
  obtain ⟨objects, others, rfl, rfl, _⟩ := (holds_choir pair).objects_of_shown hshown hcat hfirst hsecond
  refine ⟨holds_choir pair, ?_, ?_, ?_, hcatShape, objects, others, hfirst, hsecond, fun hsame => ?_⟩
  · intro field hmem hname
    rw [schema_ofChoir] at hmem
    have hfield := List.all_eq_true.mp habove field hmem
    rw [schema_ofChoir, field_ofChoir, htarget]
    simpa [hname] using hfield
  · rw [hdescendants, List.forall_mem_cons, List.forall_mem_singleton]
    exact ⟨⟨_, hdog⟩, ⟨_, hcat⟩⟩
  · rw [hdescendants, pair, List.forall_mem_cons, List.forall_mem_singleton]
    exact ⟨⟨8, List.mem_cons_self, hdogShape⟩, ⟨9, List.mem_cons_of_mem _ List.mem_cons_self, hcatShape⟩⟩
  · have hnone := congrArg (·[1]?) hwoof
    have hsome := congrArg (·[1]?) hmeow
    simp only [sounds, List.getElem?_map, hsame] at hnone hsome
    rw [hsome] at hnone
    cases hnone

end Listing

end GraphQuery
