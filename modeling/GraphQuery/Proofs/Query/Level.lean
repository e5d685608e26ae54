import GraphQuery.Proofs.Keyed
import GraphQuery.Query.Selection

/-! Levels of bound selections: those on one parent, and below each of them those on its rows. Binding
yields levels on which every selection has a place in the records of its parent, and on which no two
repeat each other; merging keeps this. -/

namespace GraphQuery

namespace BoundSelection

/-- What tells the selections of a level apart. -/
def signature (selection : BoundSelection) : FieldId × Option TypeId × String :=
  (selection.field, selection.condition?, selection.outputName)

theorem repeats_iff {a b : BoundSelection} : a.repeats b = true ↔ a.signature = b.signature := by
  simp only [repeats, signature, Bool.and_eq_true, beq_iff_eq, Prod.mk.injEq, and_assoc]

/-- What holds of a level when it holds of all levels right below it holds of every level. -/
@[elab_as_elim]
theorem level_induction {motive : List BoundSelection → Prop}
    (step : ∀ level, (∀ selection ∈ level, motive selection.children) → motive level)
    (level : List BoundSelection) : motive level :=
  step level fun selection _ => level_induction step selection.children
termination_by sizeOf level
decreasing_by
  next hmem =>
    have hlevel := List.sizeOf_lt_of_mem hmem
    cases selection
    simp only [BoundSelection.mk.sizeOf_spec] at hlevel
    dsimp only
    omega

theorem absorbOne_eq (merged : List BoundSelection) (selection : BoundSelection) :
    absorbOne merged selection = updateFirst selection
      (fun earlier => { earlier with children := absorb earlier.children selection.children })
      merged := by
  cases selection
  rfl

theorem absorb_cons (merged : List BoundSelection) (selection : BoundSelection)
    (rest : List BoundSelection) :
    absorb merged (selection :: rest) = absorb (absorbOne merged selection) rest := rfl

section

variable {selection : BoundSelection} {change : BoundSelection → BoundSelection}
  (hchange : ∀ earlier, (change earlier).signature = earlier.signature)

include hchange

theorem signatures_updateFirst (merged : List BoundSelection) :
    (updateFirst selection change merged).map signature =
      if selection.signature ∈ merged.map signature then merged.map signature
      else merged.map signature ++ [selection.signature] := by
  induction merged with
  | nil => rfl
  | cons earlier rest ih =>
      unfold updateFirst
      cases hrepeats : earlier.repeats selection with
      | true =>
          have hsame := repeats_iff.mp hrepeats
          rw [if_pos rfl, List.map_cons, hchange, List.map_cons, ← hsame, if_pos List.mem_cons_self]
      | false =>
          have hother : earlier.signature ≠ selection.signature := by
            intro hsame
            rw [repeats_iff.mpr hsame] at hrepeats
            cases hrepeats
          rw [if_neg Bool.false_ne_true, List.map_cons, ih, List.map_cons]
          by_cases hmem : selection.signature ∈ rest.map signature
          · rw [if_pos hmem, if_pos (List.mem_cons_of_mem _ hmem)]
          · rw [if_neg hmem, if_neg, List.cons_append]
            exact fun h => (List.mem_cons.mp h).elim (fun heq => hother heq.symm) hmem

end

theorem signatures_absorbOne (merged : List BoundSelection) (selection : BoundSelection) :
    (absorbOne merged selection).map signature =
      if selection.signature ∈ merged.map signature then merged.map signature
      else merged.map signature ++ [selection.signature] := by
  rw [absorbOne_eq]
  refine signatures_updateFirst ?_ merged
  exact fun _ => rfl

/-- Absorbing keeps the signatures that are there and adds the new ones in their order. -/
theorem signatures_absorb (merged others : List BoundSelection) :
    (absorb merged others).map signature = merged.map signature ++
      Keyed.firsts some (fun mark => decide (mark ∈ merged.map signature)) (others.map signature) := by
  induction others generalizing merged with
  | nil => exact (List.append_nil _).symm
  | cons selection rest ih =>
      rw [absorb_cons, ih, signatures_absorbOne, List.map_cons]
      by_cases hmem : selection.signature ∈ merged.map signature
      · simp only [Keyed.firsts, hmem, decide_true, if_true]
      · have htaken : (fun mark => decide (mark ∈ merged.map signature ++ [selection.signature])) =
            fun mark =>
              decide (mark = selection.signature) || decide (mark ∈ merged.map signature) := by
          funext mark
          rw [Bool.eq_iff_iff]
          simp only [decide_eq_true_eq, List.mem_append, List.mem_singleton, Bool.or_eq_true,
            or_comm]
        rw [if_neg hmem, htaken, List.append_assoc]
        simp only [Keyed.firsts, hmem, decide_false, Bool.false_eq_true, if_false, List.singleton_append]

theorem signatures_merge (selections : List BoundSelection) :
    (merge selections).map signature =
      Keyed.firsts some (fun _ => false) (selections.map signature) := by
  rw [merge, signatures_absorb, List.map_nil, List.nil_append]
  rfl

/-- Where two levels show the first of some marks each, so does the one once it has absorbed the other. -/
theorem signatures_absorb_firsts {merged others : List BoundSelection}
    {marks more : List (FieldId × Option TypeId × String)}
    (hmerged : merged.map signature = Keyed.firsts some (fun _ => false) marks)
    (hothers : others.map signature = Keyed.firsts some (fun _ => false) more) :
    (absorb merged others).map signature = Keyed.firsts some (fun _ => false) (marks ++ more) := by
  have htaken : ∀ mark, decide (mark ∈ merged.map signature) = true ↔
      false = true ∨ ∃ other ∈ Keyed.firsts some (fun _ => false) marks, some other = some mark := by
    intro mark
    rw [decide_eq_true_eq, hmerged]
    simp only [Bool.false_eq_true, false_or, Option.some.injEq, exists_eq_right]
  rw [signatures_absorb, Keyed.firsts_append htaken, hothers, hmerged]
  refine congrArg (_ ++ ·) (Keyed.firsts_firsts (fun a b hsame _ => hsame) (fun a hnone => hnone) ?_)
  intro a _ mark _ hfalse
  cases hfalse

theorem nodup_signatures_absorbOne {merged : List BoundSelection} (h : (merged.map signature).Nodup)
    (selection : BoundSelection) : ((absorbOne merged selection).map signature).Nodup := by
  rw [signatures_absorbOne]
  split
  · exact h
  · next hnew => exact List.nodup_append.mpr ⟨h, List.nodup_singleton _, by
      rintro a ha b hb rfl
      rw [List.mem_singleton.mp hb] at ha
      exact hnew ha⟩

theorem nodup_signatures_absorb {merged : List BoundSelection} (h : (merged.map signature).Nodup)
    (others : List BoundSelection) : ((absorb merged others).map signature).Nodup := by
  induction others generalizing merged with
  | nil => exact h
  | cons selection rest ih =>
      rw [absorb_cons]
      exact ih (nodup_signatures_absorbOne h selection)

theorem updateFirst_self {selection : BoundSelection} {change : BoundSelection → BoundSelection}
    (hchange : change selection = selection) {merged : List BoundSelection}
    (hapart : (merged.map signature).Nodup) (hmem : selection ∈ merged) :
    updateFirst selection change merged = merged := by
  induction merged with
  | nil => cases hmem
  | cons earlier rest ih =>
      have hnew := (List.nodup_cons.mp hapart).1
      rw [updateFirst]
      split
      · next hrepeats =>
          have hsame := repeats_iff.mp hrepeats
          rcases List.mem_cons.mp hmem with rfl | hrest
          · rw [hchange]
          · rw [hsame] at hnew
            exact absurd (List.mem_map_of_mem hrest) hnew
      · next hrepeats =>
          have hrest : selection ∈ rest := by
            refine (List.mem_cons.mp hmem).resolve_left ?_
            rintro rfl
            exact hrepeats (repeats_iff.mpr rfl)
          rw [ih (List.nodup_cons.mp hapart).2 hrest]

/-- A selection of a level that has absorbed another one is of that level, is the other one, or has
absorbed its children. -/
theorem mem_absorbOne {merged : List BoundSelection} {selection found : BoundSelection}
    (h : found ∈ absorbOne merged selection) :
    found ∈ merged ∨ found = selection ∨ ∃ earlier ∈ merged, earlier.signature = selection.signature ∧
      found = { earlier with children := absorb earlier.children selection.children } := by
  rw [absorbOne_eq] at h
  induction merged with
  | nil => exact Or.inr (Or.inl (List.mem_singleton.mp h))
  | cons earlier rest ih =>
      unfold updateFirst at h
      split at h
      · next hrepeats =>
          rcases List.mem_cons.mp h with rfl | h
          · exact Or.inr (Or.inr ⟨earlier, List.mem_cons_self, repeats_iff.mp hrepeats, rfl⟩)
          · exact Or.inl (List.mem_cons_of_mem _ h)
      · rcases List.mem_cons.mp h with rfl | h
        · exact Or.inl List.mem_cons_self
        · rcases ih h with hold | heq | ⟨other, hother, hsame⟩
          · exact Or.inl (List.mem_cons_of_mem _ hold)
          · exact Or.inr (Or.inl heq)
          · exact Or.inr (Or.inr ⟨other, List.mem_cons_of_mem _ hother, hsame⟩)

/-- Where no selection repeats another one, the selection absorbed is new or goes to the one that it
repeats. -/
theorem mem_absorbOne_of_nodup {merged : List BoundSelection} (hapart : (merged.map signature).Nodup)
    {selection found : BoundSelection} (h : found ∈ absorbOne merged selection) :
    found ∈ merged ∧ found.signature ≠ selection.signature ∨
      found = selection ∧ selection.signature ∉ merged.map signature ∨
      ∃ earlier ∈ merged, earlier.signature = selection.signature ∧
        found = { earlier with children := absorb earlier.children selection.children } := by
  rw [absorbOne_eq] at h
  induction merged with
  | nil => exact Or.inr (Or.inl ⟨List.mem_singleton.mp h, List.not_mem_nil⟩)
  | cons earlier rest ih =>
      obtain ⟨hnew, hrest⟩ := List.nodup_cons.mp hapart
      unfold updateFirst at h
      split at h
      · next hrepeats =>
          have hsame := repeats_iff.mp hrepeats
          rcases List.mem_cons.mp h with rfl | h
          · exact Or.inr (Or.inr ⟨earlier, List.mem_cons_self, hsame, rfl⟩)
          · refine Or.inl ⟨List.mem_cons_of_mem _ h, fun heq => hnew ?_⟩
            rw [hsame, ← heq]
            exact List.mem_map_of_mem h
      · next hrepeats =>
          have hne : earlier.signature ≠ selection.signature := fun hsame =>
            hrepeats (repeats_iff.mpr hsame)
          rcases List.mem_cons.mp h with rfl | h
          · exact Or.inl ⟨List.mem_cons_self, hne⟩
          · rcases ih hrest h with ⟨hold, hother⟩ | ⟨heq, hfree⟩ | ⟨other, hother, hsame⟩
            · exact Or.inl ⟨List.mem_cons_of_mem _ hold, hother⟩
            · refine Or.inr (Or.inl ⟨heq, ?_⟩)
              rw [List.map_cons, List.mem_cons, not_or]
              exact ⟨hne.symm, hfree⟩
            · exact Or.inr (Or.inr ⟨other, List.mem_cons_of_mem _ hother, hsame⟩)

/-- A selection of a level that has absorbed another one is of the one or of the other, or is one that
both have. -/
theorem mem_absorb {merged others : List BoundSelection} (hmerged : (merged.map signature).Nodup)
    (hothers : (others.map signature).Nodup) {found : BoundSelection} (h : found ∈ absorb merged others) :
    found ∈ merged ∧ found.signature ∉ others.map signature ∨
      found ∈ others ∧ found.signature ∉ merged.map signature ∨
      ∃ earlier ∈ merged, ∃ later ∈ others, earlier.signature = later.signature ∧
        found = { earlier with children := absorb earlier.children later.children } := by
  induction others generalizing merged with
  | nil => exact Or.inl ⟨h, List.not_mem_nil⟩
  | cons selection rest ih =>
      obtain ⟨hnew, hrest⟩ := List.nodup_cons.mp hothers
      rw [absorb_cons] at h
      have hmarks := signatures_absorbOne merged selection
      have hold {mark : FieldId × Option TypeId × String} (hmem : mark ∈ merged.map signature) :
          mark ∈ (absorbOne merged selection).map signature := by
        rw [hmarks]
        split
        · exact hmem
        · exact List.mem_append_left _ hmem
      rcases ih (nodup_signatures_absorbOne hmerged selection) hrest h with
        ⟨hone, hother⟩ | ⟨hone, hother⟩ | ⟨earlier, hearlier, later, hlater, hsame, rfl⟩
      · rcases mem_absorbOne_of_nodup hmerged hone with
          ⟨hmem, hne⟩ | ⟨rfl, hfree⟩ | ⟨earlier, hmem, hsame, rfl⟩
        · refine Or.inl ⟨hmem, ?_⟩
          rw [List.map_cons, List.mem_cons, not_or]
          exact ⟨hne, hother⟩
        · exact Or.inr (Or.inl ⟨List.mem_cons_self, hfree⟩)
        · exact Or.inr (Or.inr ⟨earlier, hmem, selection, List.mem_cons_self, hsame, rfl⟩)
      · exact Or.inr (Or.inl ⟨List.mem_cons_of_mem _ hone, fun hmem => hother (hold hmem)⟩)
      · have hapart : earlier.signature ≠ selection.signature := by
          rw [hsame]
          intro heq
          rw [← heq] at hnew
          exact hnew (List.mem_map_of_mem hlater)
        rcases mem_absorbOne_of_nodup hmerged hearlier with
          ⟨hmem, _⟩ | ⟨rfl, _⟩ | ⟨first, _, hfirst, rfl⟩
        · exact Or.inr (Or.inr ⟨earlier, hmem, later, List.mem_cons_of_mem _ hlater, hsame, rfl⟩)
        · exact absurd rfl hapart
        · exact absurd hfirst hapart

/-- What holds of the levels below two levels, and of such levels once they have absorbed each other,
holds of all levels below when the one has absorbed the other. -/
theorem children_absorb {holds : FieldId → List BoundSelection → Prop}
    {merged others : List BoundSelection}
    (hmerged : ∀ selection ∈ merged, holds selection.field selection.children)
    (hothers : ∀ selection ∈ others, holds selection.field selection.children)
    (habsorb : ∀ selection ∈ others, ∀ children, holds selection.field children →
      holds selection.field (absorb children selection.children)) :
    ∀ selection ∈ absorb merged others, holds selection.field selection.children := by
  induction others generalizing merged with
  | nil => exact hmerged
  | cons selection rest ih =>
      rw [absorb_cons]
      refine ih ?_ (fun other hmem => hothers other (List.mem_cons_of_mem _ hmem))
        (fun other hmem => habsorb other (List.mem_cons_of_mem _ hmem))
      intro found hfound
      rcases mem_absorbOne hfound with hold | rfl | ⟨earlier, hmem, hsame, rfl⟩
      · exact hmerged found hold
      · exact hothers found List.mem_cons_self
      · have hfield : earlier.field = selection.field := congrArg Prod.fst hsame
        have hearlier := hmerged earlier hmem
        dsimp only
        rw [hfield] at hearlier ⊢
        exact habsorb selection List.mem_cons_self earlier.children hearlier

end BoundSelection

namespace Schema

/-- Rows of a type can carry a selection: its field has a slot, or is none that plans bring. -/
structure Carries (schema : Schema) (owner : TypeId) (selection : BoundSelection) : Prop where
  field_id : (schema.field selection.field).id = selection.field
  carried : (schema.field selection.field).isPost = true ∨
    (schema.field selection.field).isTypename = true ∨
    ((schema.type owner).projection.slotFor? selection.field).isSome = true

/-- A selection on rows of a type: its condition is not that type, its field is the visible one of its
name, and rows can carry it. -/
structure Selects (schema : Schema) (owner : TypeId) (selection : BoundSelection) : Prop extends
    schema.Carries owner selection where
  narrows : selection.condition? ≠ some owner
  resolves : ∃ field, schema.lookupField? (selection.condition?.getD owner) selection.name = some field ∧
    field.id = selection.field
  leaf : (schema.type (schema.field selection.field).target).isLeaf = true → selection.children = []

/-- A level of selections on rows of a type, and all levels below it. -/
inductive Bound (schema : Schema) : TypeId → List BoundSelection → Prop where
  | level {owner : TypeId} {selections : List BoundSelection}
      (selects : ∀ selection ∈ selections, schema.Selects owner selection)
      (apart : (selections.map BoundSelection.signature).Nodup)
      (children : ∀ selection ∈ selections,
        Bound schema (schema.field selection.field).target selection.children) :
      Bound schema owner selections

namespace Bound

variable {schema : Schema} {owner : TypeId} {selections : List BoundSelection}

theorem selects (h : schema.Bound owner selections) :
    ∀ selection ∈ selections, schema.Selects owner selection := by
  cases h with
  | level hselects _ _ => exact hselects

theorem carries (h : schema.Bound owner selections) :
    ∀ selection ∈ selections, schema.Carries owner selection :=
  fun selection hmem => (h.selects selection hmem).toCarries

theorem apart (h : schema.Bound owner selections) :
    (selections.map BoundSelection.signature).Nodup := by
  cases h with
  | level _ hapart _ => exact hapart

theorem children (h : schema.Bound owner selections) : ∀ selection ∈ selections,
    schema.Bound (schema.field selection.field).target selection.children := by
  cases h with
  | level _ _ hchildren => exact hchildren

theorem nil (schema : Schema) (owner : TypeId) : schema.Bound owner [] :=
  level (fun _ hmem => absurd hmem List.not_mem_nil) List.nodup_nil
    (fun _ hmem => absurd hmem List.not_mem_nil)

end Bound

/-- A bound level that absorbs itself stays what it is. -/
theorem Bound.absorb_self {schema : Schema} {owner : TypeId} {selections : List BoundSelection}
    (h : schema.Bound owner selections) : BoundSelection.absorb selections selections = selections := by
  induction h with
  | @level owner selections _ apart _ ih =>
      have hall : ∀ others : List BoundSelection, (∀ other ∈ others, other ∈ selections) →
          BoundSelection.absorb selections others = selections := by
        intro others hothers
        induction others with
        | nil => rfl
        | cons selection rest rest_ih =>
            have hmem := hothers selection List.mem_cons_self
            rw [BoundSelection.absorb_cons, BoundSelection.absorbOne_eq,
              BoundSelection.updateFirst_self _ apart hmem]
            · exact rest_ih fun other hother => hothers other (List.mem_cons_of_mem _ hother)
            · rw [ih selection hmem]
              cases selection
              rfl
      exact hall selections fun _ hmem => hmem

/-- A level is another one or lies below it. -/
inductive Below (schema : Schema) (top : TypeId) (selections : List BoundSelection) :
    TypeId → List BoundSelection → Prop where
  | refl : Below schema top selections top selections
  | child {owner : TypeId} {level : List BoundSelection} {selection : BoundSelection}
      (above : Below schema top selections owner level) (mem : selection ∈ level) :
      Below schema top selections (schema.field selection.field).target selection.children

/-- What lies below a selection of a level lies below the level. -/
theorem Below.under {schema : Schema} {top owner : TypeId} {selections level : List BoundSelection}
    {selection : BoundSelection} (hmem : selection ∈ selections)
    (h : schema.Below (schema.field selection.field).target selection.children owner level) :
    schema.Below top selections owner level := by
  induction h with
  | refl => exact .child .refl hmem
  | child _ hchild ih => exact ih.child hchild

/-- Something holds of every selection of a level and of all levels below it. -/
def Throughout (schema : Schema) (holds : TypeId → BoundSelection → Prop) (top : TypeId)
    (selections : List BoundSelection) : Prop :=
  ∀ owner level, schema.Below top selections owner level → ∀ selection ∈ level, holds owner selection

namespace Throughout

variable {schema : Schema} {holds : TypeId → BoundSelection → Prop} {top : TypeId}
  {selections : List BoundSelection}

theorem of_children (hhere : ∀ selection ∈ selections, holds top selection)
    (hchildren : ∀ selection ∈ selections,
      schema.Throughout holds (schema.field selection.field).target selection.children) :
    schema.Throughout holds top selections := by
  intro owner level hbelow
  have hcases : owner = top ∧ level = selections ∨ ∃ selection ∈ selections,
      schema.Below (schema.field selection.field).target selection.children owner level := by
    induction hbelow with
    | refl => exact Or.inl ⟨rfl, rfl⟩
    | @child owner level selection _ hmem ih =>
        rcases ih with ⟨rfl, rfl⟩ | ⟨above, habove, hbelow⟩
        · exact Or.inr ⟨selection, hmem, .refl⟩
        · exact Or.inr ⟨above, habove, hbelow.child hmem⟩
  rcases hcases with ⟨rfl, rfl⟩ | ⟨selection, hmem, hbelow⟩
  · exact hhere
  · exact hchildren selection hmem owner level hbelow

variable (h : schema.Throughout holds top selections)

include h

theorem here : ∀ selection ∈ selections, holds top selection :=
  h top selections .refl

theorem children {selection : BoundSelection} (hmem : selection ∈ selections) :
    schema.Throughout holds (schema.field selection.field).target selection.children :=
  fun owner level hbelow => h owner level (hbelow.under hmem)

theorem mono {more : TypeId → BoundSelection → Prop}
    (hmore : ∀ owner selection, holds owner selection → more owner selection) :
    schema.Throughout more top selections :=
  fun owner level hbelow selection hmem => hmore owner selection (h owner level hbelow selection hmem)

end Throughout

mutual

/-- Does a test hold of a selection and of all below it? -/
def testSelection (schema : Schema) (test : TypeId → BoundSelection → Bool) (owner : TypeId) :
    BoundSelection → Bool
  | ⟨name, alias?, field, condition?, arguments, children⟩ =>
    test owner ⟨name, alias?, field, condition?, arguments, children⟩ &&
      testLevel schema test (schema.field field).target children

/-- Does a test hold of all selections of a level and of all below them? -/
def testLevel (schema : Schema) (test : TypeId → BoundSelection → Bool) (owner : TypeId) :
    List BoundSelection → Bool
  | [] => true
  | selection :: rest => testSelection schema test owner selection && testLevel schema test owner rest

end

theorem testLevel_iff {schema : Schema} {test : TypeId → BoundSelection → Bool}
    (selections : List BoundSelection) : ∀ {owner : TypeId},
      schema.testLevel test owner selections = true ↔
        schema.Throughout (fun owner selection => test owner selection = true) owner selections := by
  induction selections using BoundSelection.level_induction with
  | step level below =>
      intro owner
      have hall : schema.testLevel test owner level = true ↔ ∀ selection ∈ level,
          test owner selection = true ∧
            schema.testLevel test (schema.field selection.field).target selection.children = true := by
        clear below
        induction level with
        | nil => exact iff_of_true rfl fun _ hmem => absurd hmem List.not_mem_nil
        | cons selection rest ih =>
            rw [testLevel, Bool.and_eq_true, ih, List.forall_mem_cons]
            cases selection
            rw [testSelection, Bool.and_eq_true]
      rw [hall]
      constructor
      · intro h
        exact .of_children (fun selection hmem => (h selection hmem).1)
          fun selection hmem => (below selection hmem).mp (h selection hmem).2
      · intro h selection hmem
        exact ⟨h.here selection hmem, (below selection hmem).mpr (h.children hmem)⟩

instance decidableThroughout {schema : Schema} {holds : TypeId → BoundSelection → Prop}
    [∀ owner selection, Decidable (holds owner selection)] (top : TypeId)
    (selections : List BoundSelection) : Decidable (schema.Throughout holds top selections) :=
  decidable_of_iff (schema.testLevel (fun owner selection => decide (holds owner selection)) top
    selections = true) (by simp only [testLevel_iff, decide_eq_true_eq])

theorem Bound.of_below {schema : Schema} {top owner : TypeId} {selections level : List BoundSelection}
    (h : schema.Bound top selections) (hbelow : schema.Below top selections owner level) :
    schema.Bound owner level := by
  induction hbelow with
  | refl => exact h
  | child _ hmem ih => exact ih.children _ hmem

/-- Absorbing keeps what is selected on rows of a type. -/
theorem selects_absorb {schema : Schema} {owner : TypeId} {merged others : List BoundSelection}
    (hmerged : ∀ selection ∈ merged, schema.Selects owner selection)
    (hothers : ∀ other ∈ others, schema.Selects owner other) :
    ∀ selection ∈ BoundSelection.absorb merged others, schema.Selects owner selection := by
  induction others generalizing merged with
  | nil => exact hmerged
  | cons selection rest ih =>
      rw [BoundSelection.absorb_cons]
      refine ih ?_ fun other hmem => hothers other (List.mem_cons_of_mem _ hmem)
      have hselection := hothers selection List.mem_cons_self
      intro found hfound
      rcases BoundSelection.mem_absorbOne hfound with hold | rfl | ⟨earlier, hmem, hsame, rfl⟩
      · exact hmerged found hold
      · exact hselection
      · have hearlier := hmerged earlier hmem
        refine ⟨⟨hearlier.field_id, hearlier.carried⟩, hearlier.narrows, hearlier.resolves,
          fun hleaf => ?_⟩
        have hfield : earlier.field = selection.field := congrArg Prod.fst hsame
        have hnone := hselection.leaf (hfield ▸ hleaf)
        dsimp only
        rw [hearlier.leaf hleaf, hnone]
        rfl

/-- A bound level absorbs selections on the same parent whose own levels are bound. -/
theorem bound_absorb {schema : Schema} (others : List BoundSelection) :
    ∀ {owner : TypeId} {merged : List BoundSelection}, schema.Bound owner merged →
      (∀ other ∈ others, schema.Selects owner other) →
      (∀ other ∈ others, schema.Bound (schema.field other.field).target other.children) →
      schema.Bound owner (BoundSelection.absorb merged others) := by
  induction others using BoundSelection.level_induction with
  | step level below =>
      intro owner merged hmerged hselects hchildren
      refine Bound.level (selects_absorb hmerged.selects hselects)
        (BoundSelection.nodup_signatures_absorb hmerged.apart level) ?_
      have habsorb : ∀ selection ∈ level, ∀ children : List BoundSelection,
          schema.Bound (schema.field selection.field).target children →
          schema.Bound (schema.field selection.field).target
            (BoundSelection.absorb children selection.children) := by
        intro selection hmem children hbound
        have hbelow := hchildren selection hmem
        exact below selection hmem hbound hbelow.selects hbelow.children
      exact @BoundSelection.children_absorb
        (fun field children => schema.Bound (schema.field field).target children) _ _ hmerged.children
        hchildren habsorb

/-- Merging selections whose own levels are bound yields a bound level. -/
theorem bound_merge {schema : Schema} {owner : TypeId} {selections : List BoundSelection}
    (hselects : ∀ selection ∈ selections, schema.Selects owner selection)
    (hchildren : ∀ selection ∈ selections,
      schema.Bound (schema.field selection.field).target selection.children) :
    schema.Bound owner (BoundSelection.merge selections) :=
  bound_absorb selections (Bound.nil schema owner) hselects hchildren

end Schema

end GraphQuery
