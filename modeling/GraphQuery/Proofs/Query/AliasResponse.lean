import GraphQuery.Proofs.Query.AliasRecord
import GraphQuery.Proofs.Query.Render
import GraphQuery.Proofs.Query.ResponseKey

/-! Responses under new aliases. Rendering reads records by their keys alone, so that records that hold the
same under keys that correspond show the same selections with the same values, objects of nested selections
in the same way: only the keys of the response have new names. -/

namespace GraphQuery

/-- A selection with what a response shows for it under old and under new aliases. -/
structure Twin where
  selection : BoundSelection
  value : Value
  renamed : Value

namespace Twin

/-- What the one response shows. -/
def entry (twin : Twin) : String × Value :=
  (twin.selection.outputName, twin.value)

/-- What the other response shows, under the new name of the key. -/
def entryAs (rename : String → String) (twin : Twin) : String × Value :=
  (rename twin.selection.outputName, twin.renamed)

end Twin

namespace Renderer

section

variable (renderer : Renderer) (rename : String → String)

/-- Values of a level in a response, of which the other one is the one with the keys of all its objects
renamed. An object shows selections of the level that apply to one type; what it shows for a selection of a
leaf type is left as it is, and what it shows for a nested one has its own keys renamed. -/
inductive Reshown : List BoundSelection → Value → Value → Prop where
  | null (level : List BoundSelection) : Reshown level .null .null
  | list {level : List BoundSelection} {values others : List Value}
      (hlength : values.length = others.length)
      (heach : ∀ value other, (value, other) ∈ values.zip others → Reshown level value other) :
      Reshown level (.array values) (.array others)
  | row {level : List BoundSelection} (runtime? : Option TypeId) (twins : List Twin)
      (happlies : ∀ twin ∈ twins, twin.selection ∈ level ∧
        renderer.applies runtime? twin.selection.condition? = true)
      (hapart : (twins.map fun twin => twin.selection.outputName).Nodup)
      (hflat : ∀ twin ∈ twins, ¬renderer.schema.Nests twin.selection → twin.value = twin.renamed)
      (hnested : ∀ twin ∈ twins, renderer.schema.Nests twin.selection →
        Reshown twin.selection.children twin.value twin.renamed) :
      Reshown level (.ofEntries (twins.map Twin.entry)) (.ofEntries (twins.map (Twin.entryAs rename)))

/-- What two responses show for one selection, the other one with the keys of its objects renamed. -/
structure Alike (twin : Twin) : Prop where
  flat : ¬renderer.schema.Nests twin.selection → twin.value = twin.renamed
  nested : renderer.schema.Nests twin.selection →
    renderer.Reshown rename twin.selection.children twin.value twin.renamed

/-- What two rows hold for a selection under keys that correspond. -/
structure Held (selection : BoundSelection) (raw other : Value) : Prop where
  typename : (renderer.schema.field selection.field).isTypename = true → raw = other
  carried : (renderer.schema.field selection.field).isTypename = false →
    renderer.schema.Rerecorded rename (renderer.schema.field selection.field).target raw other

end

open Traced (Related)

variable {renderer : Renderer} {rename : String → String} {type : TypeId} {level : List BoundSelection}

/-- Objects in values that correspond are replaced alike where records that correspond are. -/
theorem mapObjects_reshown {change change' : Members → Traced Members} {value other : Value}
    (h : renderer.schema.Rerecorded rename type value other)
    (hcomposite : (renderer.schema.type type).isLeaf = false)
    (hrows : ∀ row row', renderer.schema.Rerecorded rename type (.object row) (.object row') →
      Related (fun out out' => renderer.Reshown rename level (.object out) (.object out'))
        (change row) (change' row')) :
    Related (renderer.Reshown rename level) (value.mapObjects change) (other.mapObjects change') := by
  induction h with
  | flat value hleaf =>
      rw [hcomposite] at hleaf
      cases hleaf
  | null => exact .pure (.null level)
  | @list type values others _ hlength _ ih =>
      rw [Value.mapObjects, Value.mapObjects, Value.mapObjectsAll_eq, Value.mapObjectsAll_eq]
      have hitems : List.Forall₂ (fun value other => Related (renderer.Reshown rename level)
          (value.mapObjects change) (other.mapObjects change')) values others :=
        List.forall₂_iff_zip.mpr ⟨hlength, fun hmem => ih _ _ hmem hcomposite hrows⟩
      refine (Related.mapM hitems).bind fun shown shown' _ _ hshown => .pure ?_
      exact .list hshown.length_eq fun _ _ hmem => (List.forall₂_iff_zip.mp hshown).2 hmem
  | record hleaf htypename hpresent hslots =>
      rw [Value.mapObjects, Value.mapObjects]
      exact (hrows _ _ (.record hleaf htypename hpresent hslots)).bind fun _ _ _ _ h => .pure h

/-! ### What a row holds -/

section

variable (hschema : renderer.schema.WellFormed) (hrename : Function.Injective rename)

include hschema hrename

theorem postRecord_renamed (field : Field) (arguments : Arguments) (children : List BoundSelection) :
    Related (renderer.schema.Rerecorded rename field.target)
      (renderer.postRecord field arguments children)
      (renderer.postRecord field arguments (children.map (BoundSelection.realias rename))) := by
  unfold postRecord
  refine (Related.refl _).bind ?_
  rintro computed _ _ _ rfl
  cases hleaf : (renderer.schema.type field.target).isLeaf with
  | true => exact .pure (.flat computed hleaf)
  | false =>
      have hrecord := @Compiler.record_replanned renderer.compiler rename hschema hrename children
        field.target 1
      exact (Compiler.compose_replanned hrecord (.const computed)).bind fun _ _ _ _ hplan =>
        .ofExcept ((hplan.alike.run .inProcess).mapError EngineError.backend)

variable {row row' : Members} {selection : BoundSelection} {key? key'? : Option String}

/-- Rows that correspond hold the same for a selection, or both hold nothing. -/
theorem entry_renamed (hrow : renderer.schema.Rerecorded rename type (.object row) (.object row'))
    (hget : (renderer.schema.field selection.field).isTypename = false → Option.Rel
      (renderer.schema.Rerecorded rename (renderer.schema.field selection.field).target)
      (key?.bind fun key => Members.get? key row) (key'?.bind fun key => Members.get? key row')) :
    Related (Option.Rel (renderer.Held rename selection))
      (renderer.entry (renderer.schema.type type) row (renderer.schema.field selection.field)
        selection.arguments key? selection.children)
      (renderer.entry (renderer.schema.type type) row' (renderer.schema.field selection.field)
        selection.arguments key'? (selection.children.map (BoundSelection.realias rename))) := by
  have hcarried {raw other : Value} (hplain : (renderer.schema.field selection.field).isTypename = false)
      (h : renderer.schema.Rerecorded rename (renderer.schema.field selection.field).target raw other) :
      renderer.Held rename selection raw other := by
    refine ⟨fun htypename => ?_, fun _ => h⟩
    rw [hplain] at htypename
    cases htypename
  unfold entry
  split
  · next hpost =>
      exact (postRecord_renamed hschema hrename _ _ _).bind fun _ _ _ _ hvalue =>
        .pure (.some (hcarried (Field.isTypename_of_isPost hpost) hvalue))
  · split
    · next htypename =>
        rw [hrow.get?_typename]
        refine .pure (.some ⟨fun _ => rfl, fun hplain => ?_⟩)
        rw [htypename] at hplain
        cases hplain
    · next hplain =>
        have hplain := eq_false_of_ne_true hplain
        refine .pure ?_
        have hheld := hget hplain
        generalize key?.bind _ = raw at hheld ⊢
        generalize key'?.bind _ = other at hheld ⊢
        cases hheld with
        | none => exact .none
        | some h => exact .some (hcarried hplain h)

/-! ### What an object shows -/

omit hschema hrename in
/-- What rows hold for a selection is shown alike, where their nested selections are. -/
theorem present_reshown (hchildren : renderer.schema.Nests selection → ∀ row row',
      renderer.schema.Rerecorded rename (renderer.schema.field selection.field).target (.object row)
        (.object row') →
      Related (fun out out' => renderer.Reshown rename selection.children (.object out) (.object out'))
        (renderer.renderRow (renderer.schema.type (renderer.schema.field selection.field).target)
          selection.children row)
        (renderer.renderRow (renderer.schema.type (renderer.schema.field selection.field).target)
          (selection.children.map (BoundSelection.realias rename)) row'))
    {raw other : Value} (h : renderer.Held rename selection raw other) :
    Related (fun value renamed => renderer.Alike rename ⟨selection, value, renamed⟩)
      (renderer.present selection raw) (renderer.present (selection.realias rename) other) := by
  unfold present
  rw [BoundSelection.field_realias, BoundSelection.children_realias]
  dsimp only
  cases htypename : (renderer.schema.field selection.field).isTypename with
  | true =>
      refine .pure ⟨fun _ => h.typename htypename, fun hnests => ?_⟩
      rw [hnests.1] at htypename
      cases htypename
  | false =>
      have hvalue := h.carried htypename
      rw [Bool.false_or]
      cases hleaf : (renderer.schema.type (renderer.schema.field selection.field).target).isLeaf with
      | true =>
          refine .pure ⟨fun _ => hvalue.eq_of_leaf hleaf, fun hnests => ?_⟩
          rw [hnests.2] at hleaf
          cases hleaf
      | false =>
          have hnests : renderer.schema.Nests selection := ⟨htypename, hleaf⟩
          exact (mapObjects_reshown hvalue hleaf (hchildren hnests)).mono fun value renamed hshown =>
            ⟨fun hflat => absurd hnests hflat, fun _ => hshown⟩

end

/-- Objects that show the same selections of a level so far, the other one under new names. -/
def Progress (renderer : Renderer) (rename : String → String) (runtime? : Option TypeId)
    (level : List BoundSelection) (out out' : Members) : Prop :=
  ∃ twins : List Twin, out = .ofList (twins.map Twin.entry) ∧
    out' = .ofList (twins.map (Twin.entryAs rename)) ∧
    (twins.map fun twin => twin.selection.outputName).Nodup ∧
    ∀ twin ∈ twins, (twin.selection ∈ level ∧
      renderer.applies runtime? twin.selection.condition? = true) ∧ renderer.Alike rename twin

namespace Progress

variable {runtime? : Option TypeId} {out out' : Members}

theorem reshown (h : Progress renderer rename runtime? level out out') :
    renderer.Reshown rename level (.object out) (.object out') := by
  obtain ⟨twins, rfl, rfl, hapart, htwins⟩ := h
  exact .row runtime? twins (fun twin hmem => (htwins twin hmem).1) hapart
    (fun twin hmem => (htwins twin hmem).2.flat) fun twin hmem => (htwins twin hmem).2.nested

/-- A response key is shown by both or by none. -/
theorem isSome_get? (hrename : Function.Injective rename)
    (h : Progress renderer rename runtime? level out out') (output : String) :
    (Members.get? (rename output) out').isSome = (Members.get? output out).isSome := by
  obtain ⟨twins, rfl, rfl, _⟩ := h
  have hentries : List.Forall₂ (fun a b : String × Value => rename a.1 = b.1 ∧ True)
      (twins.map Twin.entry) (twins.map (Twin.entryAs rename)) := by
    rw [List.forall₂_map_left_iff, List.forall₂_map_right_iff, List.forall₂_same]
    exact fun twin _ => ⟨rfl, trivial⟩
  have hfound := @Members.get?_ofList_related _ _ _ (Keyed.biUnique_graph hrename) (fun _ _ _ _ => True) hentries output _ rfl
  generalize Members.get? output (.ofList (twins.map Twin.entry)) = one at hfound ⊢
  generalize Members.get? (rename output) (.ofList (twins.map (Twin.entryAs rename))) = other at hfound ⊢
  cases hfound <;> rfl

theorem insert (h : Progress renderer rename runtime? level out out') {twin : Twin}
    (hlevel : twin.selection ∈ level) (happlies : renderer.applies runtime? twin.selection.condition? = true)
    (hnew : (Members.get? twin.selection.outputName out).isSome = false)
    (halike : renderer.Alike rename twin) :
    Progress renderer rename runtime? level (Members.insert twin.selection.outputName twin.value out)
      (Members.insert (rename twin.selection.outputName) twin.renamed out') := by
  obtain ⟨twins, rfl, rfl, hapart, htwins⟩ := h
  have hnames : (twins.map Twin.entry).map Prod.fst = twins.map fun twin => twin.selection.outputName :=
    List.map_map
  have hfree : twin.selection.outputName ∉ twins.map fun twin => twin.selection.outputName := by
    rw [← hnames, ← Members.isSome_get?_ofList (hnames.symm ▸ hapart), hnew]
    exact Bool.false_ne_true
  refine ⟨twins ++ [twin], ?_, ?_, ?_, ?_⟩
  · rw [List.map_append, Members.ofList, Members.ofList, List.foldl_append]
    rfl
  · rw [List.map_append, Members.ofList, Members.ofList, List.foldl_append]
    rfl
  · rw [List.map_append]
    refine List.nodup_append.mpr ⟨hapart, List.nodup_singleton _, ?_⟩
    rintro name hname _ hlast rfl
    rw [List.mem_singleton.mp hlast] at hname
    exact hfree hname
  · intro other hmem
    rcases List.mem_append.mp hmem with hmem | hmem
    · exact htwins other hmem
    · rw [List.mem_singleton.mp hmem]
      exact ⟨⟨hlevel, happlies⟩, halike⟩

end Progress

section

variable (hschema : renderer.schema.WellFormed) (hrename : Function.Injective rename)

include hschema hrename

variable {row row' : Members}

omit hschema in
theorem renderEntry_reshown {selection : BoundSelection} {key? key'? : Option String} {out out' : Members}
    {runtime? : Option TypeId} (hruntime : renderer.runtimeType? row = runtime?)
    (hruntime' : renderer.runtimeType? row' = runtime?) (hmem : selection ∈ level)
    (hentry : Related (Option.Rel (renderer.Held rename selection))
      (renderer.entry (renderer.schema.type type) row (renderer.schema.field selection.field)
        selection.arguments key? selection.children)
      (renderer.entry (renderer.schema.type type) row' (renderer.schema.field selection.field)
        selection.arguments key'? (selection.children.map (BoundSelection.realias rename))))
    (hpresent : ∀ raw other, renderer.Held rename selection raw other →
      Related (fun value renamed => renderer.Alike rename ⟨selection, value, renamed⟩)
        (renderer.present selection raw) (renderer.present (selection.realias rename) other))
    (hprogress : Progress renderer rename runtime? level out out') :
    Related (Progress renderer rename runtime? level)
      (renderer.renderEntry (renderer.schema.type type) row key? out selection)
      (renderer.renderEntry (renderer.schema.type type) row' key'? out' (selection.realias rename)) := by
  rw [renderEntry_eq, renderEntry_eq, hruntime, hruntime', BoundSelection.field_realias,
    BoundSelection.condition?_realias, BoundSelection.arguments_realias, BoundSelection.outputName_realias,
    BoundSelection.children_realias, hprogress.isSome_get? hrename]
  cases hnew : (Members.get? selection.outputName out).isSome with
  | true => exact .pure hprogress
  | false =>
      cases happlies : renderer.applies runtime? selection.condition? with
      | false => exact .pure hprogress
      | true =>
          refine hentry.bind fun raw? other? _ _ hheld => ?_
          cases hheld with
          | none => exact .pure hprogress
          | some hheld =>
              refine (hpresent _ _ hheld).bind fun value renamed _ _ halike => .pure ?_
              exact @Progress.insert _ _ _ _ _ _ hprogress ⟨selection, value, renamed⟩ hmem happlies hnew
                halike

theorem renderEntries_reshown (hcomposite : (renderer.schema.type type).isLeaf = false)
    (hrow : renderer.schema.Rerecorded rename type (.object row) (.object row'))
    {runtime? : Option TypeId} (hruntime : renderer.runtimeType? row = runtime?)
    (hruntime' : renderer.runtimeType? row' = runtime?)
    (hpresent : ∀ selection ∈ level, ∀ raw other, renderer.Held rename selection raw other →
      Related (fun value renamed => renderer.Alike rename ⟨selection, value, renamed⟩)
        (renderer.present selection raw) (renderer.present (selection.realias rename) other))
    {selections : List BoundSelection} (hsubset : selections ⊆ level) {keys keys' : List (Option String)}
    (hkeys : renderer.schema.Rekeyed rename (renderer.schema.type type) selections keys keys')
    {out out' : Members} (hprogress : Progress renderer rename runtime? level out out') :
    Related (Progress renderer rename runtime? level)
      (renderer.renderEntries (renderer.schema.type type) row keys out selections)
      (renderer.renderEntries (renderer.schema.type type) row' keys' out'
        (selections.map (BoundSelection.realias rename))) := by
  induction hkeys generalizing out out' with
  | nil => exact .pure hprogress
  | @unkeyed selection rest keys others _ ih =>
      obtain ⟨hmem, hrest⟩ := List.cons_subset.mp hsubset
      have hentry := @entry_renamed _ _ type hschema hrename _ _ selection none none hrow fun _ => .none
      exact (renderEntry_reshown hrename hruntime hruntime' hmem hentry (hpresent selection hmem)
        hprogress).bind fun _ _ _ _ hnext => ih hrest hnext
  | @keyed selection rest keys others slot key other hslot hfield hplain hpair _ ih =>
      obtain ⟨hmem, hrest⟩ := List.cons_subset.mp hsubset
      have hget : Option.Rel
          (renderer.schema.Rerecorded rename (renderer.schema.field selection.field).target)
          (Members.get? key row) (Members.get? other row') := by
        rw [← hfield]
        exact hrow.get? hcomposite hslot hplain hpair
      have hentry := @entry_renamed _ _ type hschema hrename _ _ selection (some key) (some other) hrow
        fun _ => hget
      exact (renderEntry_reshown hrename hruntime hruntime' hmem hentry (hpresent selection hmem)
        hprogress).bind fun _ _ _ _ hnext => ih hrest hnext

/-- Rows that hold the same show the same, under new names of their response keys. -/
theorem renderRow_reshown (level : List BoundSelection) : ∀ {type : TypeId} {row row' : Members},
    (renderer.schema.type type).isLeaf = false →
    renderer.schema.Rerecorded rename type (.object row) (.object row') →
      Related (fun out out' => renderer.Reshown rename level (.object out) (.object out'))
        (renderer.renderRow (renderer.schema.type type) level row)
        (renderer.renderRow (renderer.schema.type type) (level.map (BoundSelection.realias rename))
          row') := by
  induction level using BoundSelection.level_induction with
  | step level below =>
      intro type row row' hcomposite hrow
      have hruntime : renderer.runtimeType? row' = renderer.runtimeType? row := by
        rw [runtimeType?, runtimeType?, hrow.get?_typename]
      unfold renderRow
      refine (Schema.recordKeys_realias hschema hrename _ level).bind fun keys keys' _ _ hkeys => ?_
      refine (renderEntries_reshown hschema hrename hcomposite hrow rfl hruntime ?_ (List.Subset.refl level) hkeys
        ⟨[], rfl, rfl, List.nodup_nil, fun _ hmem => absurd hmem List.not_mem_nil⟩).mono fun _ _ h =>
          h.reshown
      intro selection hmem raw other hheld
      exact present_reshown (fun hnests row row' => below selection hmem hnests.2) hheld

/-- What is held for a selection that is not the name of a type is shown alike as the value of its field. -/
theorem renderField_reshown {selection : BoundSelection} {raw other : Value}
    (hplain : (renderer.schema.field selection.field).isTypename = false)
    (h : renderer.schema.Rerecorded rename (renderer.schema.field selection.field).target raw other) :
    Related (fun value renamed => renderer.Alike rename ⟨selection, value, renamed⟩)
      (renderer.renderField (renderer.schema.field selection.field) selection.children raw)
      (renderer.renderField (renderer.schema.field selection.field)
        (selection.children.map (BoundSelection.realias rename)) other) := by
  have hheld : renderer.Held rename selection raw other := by
    refine ⟨fun htypename => ?_, fun _ => h⟩
    rw [hplain] at htypename
    cases htypename
  have hpresent := present_reshown (fun hnests row row' =>
    renderRow_reshown hschema hrename selection.children hnests.2) hheld
  unfold present at hpresent
  simp only [BoundSelection.field_realias, BoundSelection.children_realias, hplain, Bool.false_or] at hpresent
  exact hpresent

end

end Renderer

end GraphQuery
