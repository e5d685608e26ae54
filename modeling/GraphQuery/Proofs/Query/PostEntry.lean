import GraphQuery.Proofs.Query.Mutation
import GraphQuery.Proofs.Query.Standing
import GraphQuery.Proofs.Value.Path

/-! Post fields in rendered values. A row has an entry for each post field that is shown on it, and the entries
inside the rows of the selections that are shown on it. Rendering calls the function of each of these entries once,
with the arguments of its selection, and shows there what is rendered of the value that the function computes. It
calls no other function of a post field. -/

namespace GraphQuery

open Traced (Makes)

/-- An entry for a post field: its place, the selection that it stands for, and the value computed for it. -/
structure PostEntry where
  path : List Step
  selection : BoundSelection
  computed : Value

namespace PostEntry

/-- The call of the function that computes the value. -/
def call (schema : Schema) (entry : PostEntry) : Call :=
  ⟨.compute, (schema.field entry.selection.field).id, entry.selection.arguments⟩

/-- The entry as one of a value that is found at the end of a path. -/
def beneath (path : List Step) (entry : PostEntry) : PostEntry :=
  { entry with path := path ++ entry.path }

theorem beneath_cons (step : Step) (path : List Step) (entry : PostEntry) :
    entry.beneath (step :: path) = (entry.beneath path).beneath [step] := rfl

end PostEntry

namespace Renderer

variable (renderer : Renderer)

/-- The computed value of a post field with records for its rows. -/
def projectComputed (field : Field) (children : List BoundSelection) (computed : Value) : Traced Value :=
  if (renderer.schema.type field.target).isLeaf then pure computed
  else do
    let plan ← renderer.compiler.compose field (.const computed) children 1
    Traced.ofExcept ((plan.run .inProcess).mapError .backend)

/-- What a response shows of the computed value of a post field. -/
def renderComputed (selection : BoundSelection) (computed : Value) : Traced Value := do
  let field := renderer.schema.field selection.field
  let raw ← renderer.projectComputed field selection.children computed
  renderer.renderField field selection.children raw

/-- Post functions that are called for entries of a value: one call for each of the expected entries, in the order
of some list of them, no two of which have one place; and each of them shows what is rendered of the computed
value. -/
def Posts (expected : PostEntry → Prop) (calls : List Call) (value : Value) : Prop :=
  ∃ entries : List PostEntry, (entries.map PostEntry.path).Nodup ∧
    calls.filter (fun call => call.kind = .compute) = entries.map (PostEntry.call renderer.schema) ∧
    (∀ entry, entry ∈ entries ↔ expected entry) ∧
    ∀ entry ∈ entries, ∃ shown, value.at? entry.path = some shown ∧
      (renderer.renderComputed entry.selection entry.computed).outcome = .ok shown

variable {renderer}

namespace Posts

variable {expected other : PostEntry → Prop} {calls : List Call} {value : Value}

theorem congr (h : renderer.Posts expected calls value) (hiff : ∀ entry, expected entry ↔ other entry) :
    renderer.Posts other calls value := by
  have hsame : expected = other := funext fun entry => propext (hiff entry)
  rwa [← hsame]

theorem none (hcalls : calls.filter (fun call => call.kind = .compute) = [])
    (hexpected : ∀ entry, ¬expected entry) : renderer.Posts expected calls value :=
  ⟨[], List.nodup_nil, hcalls, fun entry => iff_of_false List.not_mem_nil (hexpected entry),
    fun _ hmem => absurd hmem List.not_mem_nil⟩

/-- Only calls of post functions count. -/
theorem of_filter (h : renderer.Posts expected calls value) {others : List Call}
    (hcalls : others.filter (fun call => call.kind = .compute) = calls.filter fun call => call.kind = .compute) :
    renderer.Posts expected others value := by
  obtain ⟨entries, hpaths, hentries, hmem, hshown⟩ := h
  exact ⟨entries, hpaths, hcalls.trans hentries, hmem, hshown⟩

/-- A value that is computed by a post function has an entry itself, besides those inside it. -/
theorem cons (h : renderer.Posts expected calls value) {own : PostEntry} (hown : own.path = [])
    (hinside : ∀ entry, expected entry → entry.path ≠ [])
    (hrendered : (renderer.renderComputed own.selection own.computed).outcome = .ok value) :
    renderer.Posts (fun entry => entry = own ∨ expected entry) (own.call renderer.schema :: calls) value := by
  obtain ⟨entries, hpaths, hcalls, hmem, hshown⟩ := h
  refine ⟨own :: entries, ?_, ?_, fun entry => ?_, ?_⟩
  · rw [List.map_cons, List.nodup_cons, hown]
    refine ⟨fun hnil => ?_, hpaths⟩
    obtain ⟨entry, hentry, hnil⟩ := List.mem_map.mp hnil
    exact hinside entry ((hmem entry).mp hentry) hnil
  · exact congrArg (own.call renderer.schema :: ·) hcalls
  · rw [List.mem_cons, hmem]
  · rw [List.forall_mem_cons]
    refine ⟨⟨value, ?_, hrendered⟩, hshown⟩
    rw [hown, Value.at?]

/-- The entries of several values, each of which is found at the end of a step of its own. -/
theorem family {ι : Type} {items : List ι} {step : ι → Step} (hsteps : (items.map step).Nodup)
    {expected : ι → PostEntry → Prop} {calls : ι → List Call} {part : ι → Value}
    (hvalue : ∀ item ∈ items, value.step? (step item) = some (part item))
    (hparts : ∀ item ∈ items, renderer.Posts (expected item) (calls item) (part item)) :
    renderer.Posts (fun entry => ∃ item ∈ items, ∃ inner, expected item inner ∧ entry = inner.beneath [step item])
      (items.flatMap calls) value := by
  choose! entries hpaths hcalls hmem hshown using hparts
  have hinside (item : ι) : ((entries item).map (PostEntry.beneath [step item])).map PostEntry.path =
      ((entries item).map PostEntry.path).map (List.cons (step item)) := by
    rw [List.map_map, List.map_map]
    rfl
  refine ⟨items.flatMap fun item => (entries item).map (PostEntry.beneath [step item]), ?_, ?_, fun entry => ?_, ?_⟩
  · rw [List.map_flatMap, List.nodup_flatMap]
    simp only [hinside]
    constructor
    · exact fun item hitem => (hpaths item hitem).map List.cons_injective
    · refine (List.pairwise_map.mp hsteps).imp fun {a b} hne path ha hb => hne ?_
      -- the paths of different items begin with different steps
      obtain ⟨_, _, rfl⟩ := List.mem_map.mp ha
      obtain ⟨_, _, hsame⟩ := List.mem_map.mp hb
      exact (List.cons.inj hsame).1.symm
  · rw [List.filter_flatMap, List.map_flatMap]
    refine List.flatMap_congr fun item hitem => ?_
    rw [hcalls item hitem, List.map_map]
    rfl
  · simp only [List.mem_flatMap, List.mem_map]
    refine exists_congr fun item => and_congr_right fun hitem => exists_congr fun inner => ?_
    rw [hmem item hitem, eq_comm]
  · intro entry hentry
    obtain ⟨item, hitem, hentry⟩ := List.mem_flatMap.mp hentry
    obtain ⟨inner, hinner, rfl⟩ := List.mem_map.mp hentry
    obtain ⟨shown, hshown, hrendered⟩ := hshown item hitem inner hinner
    refine ⟨shown, ?_, hrendered⟩
    show value.at? (step item :: inner.path) = some shown
    rw [Value.at?_cons_of_step (hvalue item hitem), hshown]

/-- The entries of an object whose members are shown one after the other. -/
theorem members {ι : Type} {items : List ι} {name : ι → String} {step : ι → Traced Value}
    {expected : ι → PostEntry → Prop} {shown : List (String × Value)} (hnames : (items.map name).Nodup)
    (hshown : (items.mapM fun item => do
      let value ← step item
      pure (name item, value)).outcome = .ok shown)
    (hparts : ∀ item ∈ items, ∀ value, (step item).outcome = .ok value →
      renderer.Posts (expected item) (step item).calls value) :
    renderer.Posts (fun entry => ∃ item ∈ items, ∃ inner, expected item inner ∧
        entry = inner.beneath [.member (name item)])
      (items.mapM fun item => do
        let value ← step item
        pure (name item, value)).calls (.ofEntries shown) := by
  simp only [Traced.calls_mapM hshown, Traced.calls_bind_pure]
  have hsteps : (items.map fun item => Step.member (name item)).Nodup := by
    have hinjective : Function.Injective Step.member := fun _ _ h => Step.member.inj h
    have hmap := hnames.map hinjective
    rwa [List.map_map] at hmap
  rw [Traced.outcome_mapM] at hshown
  have hpair (item : ι) : (do
      let value ← step item
      pure (name item, value) : Traced (String × Value)).outcome = (step item).outcome.map (name item, ·) := by
    rw [Traced.outcome_bind]
    cases (step item).outcome <;> rfl
  simp only [hpair] at hshown
  have hnodup : (shown.map Prod.fst).Nodup := by
    rwa [Outcome.names_of_mapM hshown]
  have hvalues : ∀ item ∈ items, ∃ value, (step item).outcome = .ok value ∧ (name item, value) ∈ shown := by
    intro item hitem
    obtain ⟨entry, hentry, hok⟩ := Outcome.ok_of_mapM hshown hitem
    obtain ⟨value, hvalue, rfl⟩ := Outcome.map_ok_iff.mp hok
    exact ⟨value, hvalue, hentry⟩
  choose! part hok hentry using hvalues
  refine family hsteps (fun item hitem => ?_) fun item hitem => hparts item hitem _ (hok item hitem)
  exact Members.get?_of_mem hnodup (hentry item hitem)

/-- The entries of an array whose items are shown one after the other. -/
theorem items {items values : List Value} {step : Value → Traced Value} {expected : Value → PostEntry → Prop}
    (hvalues : (items.mapM step).outcome = .ok values)
    (hparts : ∀ item ∈ items, ∀ value, (step item).outcome = .ok value →
      renderer.Posts (expected item) (step item).calls value) :
    renderer.Posts (fun entry => ∃ place item, items[place]? = some item ∧ ∃ inner, expected item inner ∧
        entry = inner.beneath [.item place]) (items.mapM step).calls (.array values) := by
  rw [Traced.calls_mapM hvalues]
  rw [Traced.outcome_mapM] at hvalues
  have hsteps : (items.zipIdx.map fun item => Step.item item.2).Nodup := by
    have hinjective : Function.Injective Step.item := fun _ _ h => Step.item.inj h
    have hmap := (List.nodup_range' (s := 0) (n := items.length)).map hinjective
    rwa [← List.zipIdx_map_snd, List.map_map] at hmap
  have hplaces : ∀ item ∈ items.zipIdx, ∃ value, (step item.1).outcome = .ok value ∧ values[item.2]? = some value := by
    intro item hitem
    obtain ⟨value, hvalue, hok⟩ := Outcome.result_of_mapM hvalues (List.mem_zipIdx_iff_getElem?.mp hitem)
    exact ⟨value, hok, hvalue⟩
  choose! part hok hplace using hplaces
  have hall := @family renderer (.array values) _ items.zipIdx _ hsteps (fun item => expected item.1)
    (fun item => (step item.1).calls) part hplace fun item hitem =>
      hparts item.1 (List.fst_mem_of_mem_zipIdx hitem) _ (hok item hitem)
  rw [← List.flatMap_map Prod.fst fun item => (step item).calls, List.zipIdx_map_fst] at hall
  refine hall.congr fun entry => ?_
  constructor
  · rintro ⟨item, hitem, hentry⟩
    exact ⟨item.2, item.1, List.mem_zipIdx_iff_getElem?.mp hitem, hentry⟩
  · rintro ⟨place, item, hitem, hentry⟩
    exact ⟨(item, place), List.mem_zipIdx_iff_getElem?.mpr hitem, hentry⟩

end Posts

/-! ### Rows -/

/-- The entries inside the rows of a value: the objects that it is, or that its arrays hold at any depth. -/
def InRows (entries : Members → PostEntry → Prop) (raw : Value) (entry : PostEntry) : Prop :=
  ∃ (places : List Nat) (row : Members) (inner : PostEntry),
    raw.at? (places.map Step.item) = some (.object row) ∧ entries row inner ∧
      entry = inner.beneath (places.map Step.item)

variable (renderer)

/-- The selections that are shown on a row, each with its key in the record of the row: of each response key the
first one that applies to the row and for which there is a value. -/
def shownOn (row : Members) (level : List BoundSelection) (keys : List (Option String)) :
    List (BoundSelection × Option String) :=
  Keyed.firsts (renderer.shownKey? row) (fun _ => false) (level.zip keys)

/-- The entries for post fields of the object of a row: those of the post fields that are shown on it, and those
inside the rows of other selections that are shown on it. -/
inductive PostIn : TypeId → List BoundSelection → Members → PostEntry → Prop where
  | own {owner : TypeId} {level : List BoundSelection} {row : Members} {keys : List (Option String)}
      {selection : BoundSelection} {key? : Option String} {computed : Value}
      (keyed : renderer.schema.recordKeys (renderer.schema.type owner) level = .ok keys)
      (shown : (selection, key?) ∈ renderer.shownOn row level keys)
      (isPost : (renderer.schema.field selection.field).isPost = true)
      (result : ((renderer.schema.field selection.field).tracedValue selection.arguments).outcome = .ok computed) :
      PostIn owner level row ⟨[.member selection.outputName], selection, computed⟩
  | nested {owner : TypeId} {level : List BoundSelection} {row : Members} {keys : List (Option String)}
      {selection : BoundSelection} {key? : Option String} {raw : Value} {places : List Nat} {inner : Members}
      {entry : PostEntry}
      (keyed : renderer.schema.recordKeys (renderer.schema.type owner) level = .ok keys)
      (shown : (selection, key?) ∈ renderer.shownOn row level keys) (nests : renderer.schema.Nests selection)
      (held : (renderer.entry (renderer.schema.type owner) row (renderer.schema.field selection.field)
        selection.arguments key? selection.children).outcome = .ok (some raw))
      (place : raw.at? (places.map Step.item) = some (.object inner))
      (inside : PostIn (renderer.schema.field selection.field).target selection.children inner entry) :
      PostIn owner level row (entry.beneath (.member selection.outputName :: places.map Step.item))

/-- The entries of a selection whose field may have some values: its own if it is a post field, and those inside
its rows. -/
def PostOf (selection : BoundSelection) (held : Value → Prop) (entry : PostEntry) : Prop :=
  let field := renderer.schema.field selection.field
  (field.isPost = true ∧ ∃ computed, (field.tracedValue selection.arguments).outcome = .ok computed ∧
      entry = ⟨[], selection, computed⟩) ∨
    renderer.schema.Nests selection ∧ ∃ raw, held raw ∧
      InRows (renderer.PostIn field.target selection.children) raw entry

variable {renderer}

/-- The place of an entry begins with the response key that it is shown under, or that leads to it. -/
theorem PostIn.path_ne_nil {owner : TypeId} {level : List BoundSelection} {row : Members} {entry : PostEntry}
    (h : renderer.PostIn owner level row entry) : entry.path ≠ [] := by
  cases h <;> exact List.cons_ne_nil _ _

/-- The entries of a row are those of what is shown on it. -/
theorem postIn_iff {owner : TypeId} {level : List BoundSelection} {row : Members} {keys : List (Option String)}
    (hkeys : renderer.schema.recordKeys (renderer.schema.type owner) level = .ok keys) (entry : PostEntry) :
    renderer.PostIn owner level row entry ↔ ∃ item ∈ renderer.shownOn row level keys, ∃ inner,
      renderer.PostOf item.1 (fun raw => (renderer.entry (renderer.schema.type owner) row
        (renderer.schema.field item.1.field) item.1.arguments item.2 item.1.children).outcome = .ok (some raw)) inner ∧
        entry = inner.beneath [.member item.1.outputName] := by
  constructor
  · intro h
    cases h with
    | own hkeyed hshown hpost hresult =>
        rw [hkeys] at hkeyed
        cases hkeyed
        exact ⟨_, hshown, _, Or.inl ⟨hpost, _, hresult, rfl⟩, rfl⟩
    | nested hkeyed hshown hnests hheld hplace hinside =>
        rw [hkeys] at hkeyed
        cases hkeyed
        exact ⟨_, hshown, _, Or.inr ⟨hnests, _, hheld, _, _, _, hplace, hinside, rfl⟩,
          PostEntry.beneath_cons _ _ _⟩
  · rintro ⟨⟨selection, key?⟩, hshown, inner, hinner, rfl⟩
    rcases hinner with ⟨hpost, computed, hresult, rfl⟩ | ⟨hnests, raw, hheld, places, row, entry, hplace, hinside, rfl⟩
    · exact .own hkeys hshown hpost hresult
    · rw [← PostEntry.beneath_cons]
      exact .nested hkeys hshown hnests hheld hplace hinside

/-- What replaces the objects of a value shows the entries inside its rows. -/
theorem Posts.mapObjects {change : Members → Traced Members} {entries : Members → PostEntry → Prop}
    (hrow : ∀ row out, (change row).outcome = .ok out →
      renderer.Posts (entries row) (change row).calls (.object out)) (raw : Value) {shown : Value}
    (h : (raw.mapObjects change).outcome = .ok shown) :
    renderer.Posts (InRows entries raw) (raw.mapObjects change).calls shown := by
  cases raw with
  | array items =>
      rw [Value.mapObjects, Value.mapObjectsAll_eq] at h ⊢
      obtain ⟨values, hvalues, hpure⟩ := Traced.bind_ok_iff.mp h
      cases hpure
      rw [Traced.calls_bind_pure]
      refine (Posts.items hvalues fun item _ value hvalue => Posts.mapObjects hrow item hvalue).congr fun entry => ?_
      constructor
      · rintro ⟨place, item, hitem, inner, ⟨places, row, within, hplace, hwithin, rfl⟩, rfl⟩
        refine ⟨place :: places, row, within, ?_, hwithin, (PostEntry.beneath_cons _ _ _).symm⟩
        exact Value.at?_array_iff.mpr ⟨place, places, item, rfl, hitem, hplace⟩
      · rintro ⟨_, row, within, hplace, hwithin, rfl⟩
        obtain ⟨place, places, item, rfl, hitem, hplace⟩ := Value.at?_array_iff.mp hplace
        exact ⟨place, item, hitem, _, ⟨places, row, within, hplace, hwithin, rfl⟩,
          PostEntry.beneath_cons _ _ _⟩
  | object row =>
      rw [Value.mapObjects] at h ⊢
      obtain ⟨out, hout, hpure⟩ := Traced.bind_ok_iff.mp h
      cases hpure
      rw [Traced.calls_bind_pure]
      refine (hrow row out hout).congr fun entry => ?_
      constructor
      · exact fun hentry => ⟨[], row, entry, rfl, hentry, rfl⟩
      · rintro ⟨places, other, within, hplace, hwithin, rfl⟩
        obtain ⟨rfl, hsame⟩ := (Value.at?_items_of_step fun _ => rfl).mp hplace
        cases hsame
        exact hwithin
  | null | bool _ | number _ | string _ =>
      cases h
      refine Posts.none rfl ?_
      rintro _ ⟨places, row, _, hplace, _⟩
      obtain ⟨_, hsame⟩ := (Value.at?_items_of_step fun _ => rfl).mp hplace
      cases hsame
termination_by sizeOf raw

/-! ### Selections -/

theorem present_of_plain {selection : BoundSelection}
    (htypename : (renderer.schema.field selection.field).isTypename = false) (raw : Value) :
    renderer.present selection raw =
      renderer.renderField (renderer.schema.field selection.field) selection.children raw := by
  unfold present renderField
  dsimp only
  rw [htypename, Bool.false_or]

theorem postRecord_eq (field : Field) (arguments : Arguments) (children : List BoundSelection) :
    renderer.postRecord field arguments children =
      field.tracedValue arguments >>= renderer.projectComputed field children := rfl

theorem projectComputed_makes (field : Field) (children : List BoundSelection) (computed : Value) :
    (renderer.projectComputed field children computed).Makes (· = .plan) := by
  unfold projectComputed
  split
  · exact Makes.pure _
  · exact (renderer.compiler.compose_makes _ _ _ _).bind fun _ => Makes.ofExcept _

/-- Computing a post field calls its own function, and those that build the plans below it. -/
theorem filter_postRecord {field : Field} (hpost : field.isPost = true) (arguments : Arguments)
    (children : List BoundSelection) :
    (renderer.postRecord field arguments children).calls.filter (fun call => call.kind = .compute) =
      [⟨.compute, field.id, arguments⟩] := by
  have hcalls : (field.tracedValue arguments).calls = [⟨.compute, field.id, arguments⟩] := by
    unfold Field.tracedValue
    dsimp only
    rw [if_pos hpost]
    rfl
  rw [postRecord_eq]
  cases hcomputed : (field.tracedValue arguments).outcome with
  | error error =>
      rw [Traced.bind_of_error hcomputed, hcalls]
      rfl
  | ok computed =>
      have hplans : (renderer.projectComputed field children computed).calls.filter
          (fun call => call.kind = .compute) = [] := (projectComputed_makes _ _ _).filter_eq_nil nofun
      rw [Traced.bind_of_ok hcomputed, hcalls]
      dsimp only
      rw [List.filter_append, hplans]
      rfl

section

variable {selection : BoundSelection}
  (hrows : ∀ row out,
    (renderer.renderRow (renderer.schema.type (renderer.schema.field selection.field).target) selection.children
      row).outcome = .ok out →
    renderer.Posts (renderer.PostIn (renderer.schema.field selection.field).target selection.children row)
      (renderer.renderRow (renderer.schema.type (renderer.schema.field selection.field).target) selection.children
        row).calls (.object out))

include hrows

theorem posts_of_present {raw shown : Value} (h : (renderer.present selection raw).outcome = .ok shown) :
    renderer.Posts (fun entry => renderer.schema.Nests selection ∧
        InRows (renderer.PostIn (renderer.schema.field selection.field).target selection.children) raw entry)
      (renderer.present selection raw).calls shown := by
  by_cases hnests : renderer.schema.Nests selection
  · have hpresent : renderer.present selection raw = raw.mapObjects (renderer.renderRow
        (renderer.schema.type (renderer.schema.field selection.field).target) selection.children) := by
      unfold present
      dsimp only
      rw [hnests.1, hnests.2, Bool.or_false, if_neg Bool.false_ne_true]
    rw [hpresent] at h ⊢
    exact (Posts.mapObjects hrows raw h).congr fun entry => (and_iff_right hnests).symm
  · have hpresent : renderer.present selection raw = pure raw := by
      refine if_pos ?_
      rw [Schema.Nests, not_and_or, Bool.not_eq_false, Bool.not_eq_false] at hnests
      rwa [Bool.or_eq_true]
    rw [hpresent]
    exact Posts.none rfl fun entry hentry => hnests hentry.1

/-- The entries of a selection that is shown with the value of some computation. -/
theorem posts_of_held {held : Traced Value} {shown : Value}
    (h : (held >>= renderer.present selection).outcome = .ok shown)
    (hcalls : held.calls.filter (fun call => call.kind = .compute) =
      if (renderer.schema.field selection.field).isPost then
        [⟨.compute, (renderer.schema.field selection.field).id, selection.arguments⟩] else [])
    (hpost : (renderer.schema.field selection.field).isPost = true → held.outcome =
      (renderer.postRecord (renderer.schema.field selection.field) selection.arguments selection.children).outcome) :
    renderer.Posts (renderer.PostOf selection fun raw => held.outcome = .ok raw)
      (held >>= renderer.present selection).calls shown := by
  obtain ⟨raw, hraw, hshown⟩ := Traced.bind_ok_iff.mp h
  have hinside := posts_of_present hrows hshown
  rw [Traced.bind_of_ok hraw]
  dsimp only
  cases hkind : (renderer.schema.field selection.field).isPost with
  | false =>
      rw [hkind, if_neg Bool.false_ne_true] at hcalls
      have hfilter : (held.calls ++ (renderer.present selection raw).calls).filter (fun call => call.kind = .compute) =
          (renderer.present selection raw).calls.filter fun call => call.kind = .compute := by
        rw [List.filter_append, hcalls, List.nil_append]
      refine (hinside.of_filter hfilter).congr fun entry => ?_
      rw [PostOf, hkind]
      simp [hraw]
  | true =>
      rw [hkind, if_pos rfl] at hcalls
      obtain ⟨computed, hcomputed, hproject⟩ := Traced.bind_ok_iff.mp ((hpost hkind).symm.trans hraw)
      have hrendered : (renderer.renderComputed selection computed).outcome = .ok shown := by
        rw [present_of_plain (Field.isTypename_of_isPost hkind)] at hshown
        exact Traced.bind_ok_iff.mpr ⟨raw, hproject, hshown⟩
      have hpaths (entry : PostEntry) (hentry : renderer.schema.Nests selection ∧
          InRows (renderer.PostIn (renderer.schema.field selection.field).target selection.children) raw entry) :
          entry.path ≠ [] := by
        obtain ⟨_, places, row, inner, _, hinner, rfl⟩ := hentry
        exact fun hnil => hinner.path_ne_nil (List.append_eq_nil_iff.mp hnil).2
      have hown := @Posts.cons _ _ _ _ hinside ⟨[], selection, computed⟩ rfl hpaths hrendered
      have hfilter : (held.calls ++ (renderer.present selection raw).calls).filter (fun call => call.kind = .compute) =
          ((⟨.compute, (renderer.schema.field selection.field).id, selection.arguments⟩ : Call) ::
            (renderer.present selection raw).calls).filter fun call => call.kind = .compute := by
        rw [List.filter_append, hcalls]
        rfl
      refine (hown.of_filter hfilter).congr fun entry => ?_
      rw [PostOf, hkind, hcomputed, hraw]
      simp

end

/-! ### Levels -/

/-- What is shown has response keys of its own. -/
theorem shownOn_nodup (row : Members) (level : List BoundSelection) (keys : List (Option String)) :
    ((renderer.shownOn row level keys).map fun item => item.1.outputName).Nodup := by
  refine Keyed.firsts_nodup fun item key hkey => ?_
  rw [shownKey?, Option.ite_none_right_eq_some] at hkey
  exact (responseKey?_eq_some.mp hkey.2).2

/-- A selection that is shown is one of the level, applies to the row, and has a value. -/
theorem of_mem_shownOn {row : Members} {level : List BoundSelection} {keys : List (Option String)}
    {item : BoundSelection × Option String} (h : item ∈ renderer.shownOn row level keys) :
    item.1 ∈ level ∧ renderer.applies (renderer.runtimeType? row) item.1.condition? = true ∧
      renderer.fills row item.2 item.1 = true := by
  obtain ⟨hmem, key, hkey, _⟩ := Keyed.mem_firsts h
  rw [shownKey?, Option.ite_none_right_eq_some] at hkey
  exact ⟨(List.of_mem_zip hmem).1, (responseKey?_eq_some.mp hkey.2).1, hkey.1⟩

/-- Entries of rows call the functions of post fields, and no others do. -/
theorem filter_entry (type : SchemaType) (row : Members) (field : Field) (arguments : Arguments)
    (key? : Option String) (children : List BoundSelection) :
    (renderer.entry type row field arguments key? children).calls.filter (fun call => call.kind = .compute) =
      if field.isPost then [⟨.compute, field.id, arguments⟩] else [] := by
  unfold entry
  cases hpost : field.isPost with
  | true =>
      rw [if_pos rfl, if_pos rfl, Traced.calls_bind_pure, filter_postRecord hpost]
  | false =>
      rw [if_neg Bool.false_ne_true, if_neg Bool.false_ne_true]
      split <;> rfl

/-- What a selection shows on a row that has a value for it. -/
theorem posts_of_shown {type : SchemaType} {row : Members} {selection : BoundSelection} {key? : Option String}
    (hfills : renderer.fills row key? selection = true)
    (hrows : ∀ row out,
      (renderer.renderRow (renderer.schema.type (renderer.schema.field selection.field).target) selection.children
        row).outcome = .ok out →
      renderer.Posts (renderer.PostIn (renderer.schema.field selection.field).target selection.children row)
        (renderer.renderRow (renderer.schema.type (renderer.schema.field selection.field).target) selection.children
          row).calls (.object out)) {value : Value}
    (h : (renderer.shown type row key? selection).outcome = .ok value) :
    renderer.Posts (renderer.PostOf selection fun raw => (renderer.entry type row
        (renderer.schema.field selection.field) selection.arguments key? selection.children).outcome = .ok (some raw))
      (renderer.shown type row key? selection).calls value := by
  have hentry := renderer.entry_eq type row key? selection
  have hfilter := renderer.filter_entry type row (renderer.schema.field selection.field) selection.arguments key?
    selection.children
  have hrecord : (renderer.schema.field selection.field).isPost = true →
      renderer.entry type row (renderer.schema.field selection.field) selection.arguments key? selection.children =
        (do
          let value ← renderer.postRecord (renderer.schema.field selection.field) selection.arguments
            selection.children
          pure (some value)) := fun hpost => if_pos hpost
  have hshown : renderer.shown type row key? selection = (do
      let raw? ← renderer.entry type row (renderer.schema.field selection.field) selection.arguments key?
        selection.children
      pure (raw?.getD .null)) >>= renderer.present selection := by
    rw [shown, bind_assoc]
    simp only [pure_bind]
  rw [hfills, if_pos rfl] at hentry
  rw [hshown] at h ⊢
  generalize renderer.entry type row (renderer.schema.field selection.field) selection.arguments key?
    selection.children = entry at *
  rw [← Traced.calls_bind_pure entry fun raw? => raw?.getD .null] at hfilter
  refine (posts_of_held hrows h hfilter fun hpost => ?_).congr fun inner => ?_
  · rw [hrecord hpost, bind_assoc]
    simp only [pure_bind, Option.getD_some, bind_pure]
  · have hsame : (fun raw => (do let raw? ← entry; pure (raw?.getD .null) : Traced Value).outcome = .ok raw) =
        fun raw => entry.outcome = .ok (some raw) := by
      funext raw
      conv_rhs => rw [hentry]
      rw [Traced.outcome_bind, Traced.outcome_bind]
      apply propext
      cases entry.outcome with
      | error error =>
          constructor <;> intro h <;> cases h
      | ok raw? =>
          constructor
          · intro h
            cases h
            rfl
          · intro h
            cases h
            rfl
    rw [hsame]

/-- Rendering a row calls the post functions of the entries of the row. -/
theorem posts_of_renderRow (level : List BoundSelection) :
    ∀ (owner : TypeId) (row out : Members),
      (renderer.renderRow (renderer.schema.type owner) level row).outcome = .ok out →
        renderer.Posts (renderer.PostIn owner level row)
          (renderer.renderRow (renderer.schema.type owner) level row).calls (.object out) := by
  induction level using BoundSelection.level_induction with
  | step level below =>
      intro owner row out h
      unfold renderRow at h ⊢
      obtain ⟨keys, hkeys, h⟩ := Traced.bind_ok_iff.mp h
      rw [renderEntries_zip] at h
      obtain ⟨shown, hshown, hpure⟩ := Traced.bind_ok_iff.mp h
      cases hpure
      rw [Traced.bind_of_ok hkeys, renderEntries_zip]
      dsimp only
      rw [Traced.calls_bind_pure, Traced.calls_ofExcept, List.nil_append]
      have hitems := Posts.members (shownOn_nodup row level keys) hshown fun item hitem value hvalue =>
        posts_of_shown (of_mem_shownOn hitem).2.2 (below item.1 (of_mem_shownOn hitem).1 _) hvalue
      exact hitems.congr fun entry => (postIn_iff hkeys entry).symm

end Renderer

end GraphQuery
