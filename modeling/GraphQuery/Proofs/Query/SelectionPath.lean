import GraphQuery.Proofs.Query.Depth

/-! Merging keeps paths. A path goes from a selection to one of its children and so on, each named by its
signature. At the end of a path a tree shows the first selection of each signature. Two selections that
repeat each other show the same there as the one that has absorbed the other: paths do not tell them apart.
Merged trees therefore show what their expansions show, and since nothing in them is repeated, this is all
that they hold. -/

namespace GraphQuery

namespace BoundSelection

/-! ### Trees without repetitions -/

/-- No two selections of a level repeat each other, nor do any of a level below it. -/
inductive Apart : List BoundSelection → Prop where
  | level {level : List BoundSelection} (here : (level.map signature).Nodup)
      (children : ∀ selection ∈ level, Apart selection.children) : Apart level

namespace Apart

variable {level : List BoundSelection}

theorem here (h : Apart level) : (level.map signature).Nodup := by
  cases h with
  | level here _ => exact here

theorem children (h : Apart level) : ∀ selection ∈ level, Apart selection.children := by
  cases h with
  | level _ hchildren => exact hchildren

theorem nil : Apart [] :=
  .level List.nodup_nil fun _ hmem => absurd hmem List.not_mem_nil

end Apart

theorem apart_absorb (others : List BoundSelection) : ∀ {merged}, Apart merged →
    (∀ other ∈ others, Apart other.children) → Apart (absorb merged others) := by
  induction others using level_induction with
  | step level below =>
      intro merged hmerged hchildren
      refine .level (nodup_signatures_absorb hmerged.here level) ?_
      refine @children_absorb (fun _ children => Apart children) _ _ hmerged.children hchildren ?_
      intro selection hmem children hapart
      exact below selection hmem hapart (hchildren selection hmem).children

theorem apart_mergeBelowAll (selections : List BoundSelection) :
    ∀ selection ∈ mergeBelowAll selections, Apart selection.children := by
  induction selections using level_induction with
  | step level below =>
      intro merged hmem
      rw [mergeBelowAll_eq_map] at hmem
      obtain ⟨selection, hselection, rfl⟩ := List.mem_map.mp hmem
      rw [children_mergeBelow]
      exact apart_absorb _ .nil (below selection hselection)

/-- Merging does nothing where there is nothing to merge. -/
theorem merge_of_nodup {level : List BoundSelection} (h : (level.map signature).Nodup) : merge level = level := by
  suffices hall : ∀ earlier later : List BoundSelection, ((earlier ++ later).map signature).Nodup →
      absorb earlier later = earlier ++ later from hall [] level h
  intro earlier later
  induction later generalizing earlier with
  | nil => exact fun _ => (List.append_nil earlier).symm
  | cons selection rest ih =>
      intro hapart
      have hadded : absorbOne earlier selection = earlier ++ [selection] := by
        rw [absorbOne_eq]
        have hnew : ∀ other ∈ earlier, other.signature ≠ selection.signature := by
          rw [List.map_append, List.map_cons] at hapart
          intro other hmem
          exact (List.nodup_append.mp hapart).2.2 _ (List.mem_map_of_mem hmem) _ List.mem_cons_self
        clear hapart ih
        induction earlier with
        | nil => rfl
        | cons other others ihe =>
            have hother : ¬ other.repeats selection = true :=
              fun hrepeats => hnew other List.mem_cons_self (repeats_iff.mp hrepeats)
            rw [updateFirst, if_neg hother, ihe fun next hmem => hnew next (List.mem_cons_of_mem _ hmem)]
            rfl
      rw [absorb_cons, hadded, ih _ (by rwa [← List.append_cons]), ← List.append_cons]

/-- A merged list is left unchanged by merging. -/
theorem merge_merge (selections : List BoundSelection) : merge (merge selections) = merge selections :=
  merge_of_nodup (@nodup_signatures_absorb [] List.nodup_nil selections)

/-! ### Paths -/

/-- The signatures on the way from a selection to one below it. -/
abbrev SelectionPath := List (FieldId × Option TypeId × String)

/-- A selection without those below it. -/
def bare (selection : BoundSelection) : BoundSelection :=
  { selection with children := [] }

/-- A level has a path of selections. -/
inductive HasPath : List BoundSelection → SelectionPath → Prop where
  | node {level : List BoundSelection} {selection : BoundSelection} (mem : selection ∈ level) :
      HasPath level [selection.signature]
  | under {level : List BoundSelection} {selection : BoundSelection} {path : SelectionPath}
      (mem : selection ∈ level) (rest : HasPath selection.children path) :
      HasPath level (selection.signature :: path)

/-- The selections of one signature. -/
def signed (mark : FieldId × Option TypeId × String) (level : List BoundSelection) : List BoundSelection :=
  level.filter fun selection => decide (selection.signature = mark)

/-- The selections right below the end of a path, those below all selections of one signature taken together
in the order of these. -/
def endOf : SelectionPath → List BoundSelection → List BoundSelection
  | [], level => level
  | mark :: path, level => endOf path ((signed mark level).flatMap children)

/-- The first selection of each signature right below the end of a path. -/
def firstsOf (path : SelectionPath) (level : List BoundSelection) : List BoundSelection :=
  Keyed.firsts (fun selection => some selection.signature) (fun _ => false) ((endOf path level).map bare)

theorem mem_signed {mark : FieldId × Option TypeId × String} {level : List BoundSelection}
    {selection : BoundSelection} : selection ∈ signed mark level ↔ selection ∈ level ∧ selection.signature = mark := by
  rw [signed, List.mem_filter, decide_eq_true_eq]

theorem signed_cons_of_eq {mark : FieldId × Option TypeId × String} {selection : BoundSelection}
    (h : selection.signature = mark) (rest : List BoundSelection) :
    signed mark (selection :: rest) = selection :: signed mark rest :=
  List.filter_cons_of_pos (decide_eq_true h)

theorem signed_cons_of_ne {mark : FieldId × Option TypeId × String} {selection : BoundSelection}
    (h : selection.signature ≠ mark) (rest : List BoundSelection) :
    signed mark (selection :: rest) = signed mark rest :=
  List.filter_cons_of_neg fun hsame => h (of_decide_eq_true hsame)

theorem signed_append (mark : FieldId × Option TypeId × String) (first others : List BoundSelection) :
    signed mark (first ++ others) = signed mark first ++ signed mark others :=
  List.filter_append _ _

theorem signed_eq_nil {mark : FieldId × Option TypeId × String} {level : List BoundSelection}
    (h : mark ∉ level.map signature) : signed mark level = [] := by
  rw [List.eq_nil_iff_forall_not_mem]
  intro selection hmem
  obtain ⟨hhere, rfl⟩ := mem_signed.mp hmem
  exact h (List.mem_map_of_mem hhere)

theorem endOf_nil (path : SelectionPath) : endOf path [] = [] := by
  induction path with
  | nil => rfl
  | cons mark path ih => exact ih

theorem endOf_append (path : SelectionPath) (first others : List BoundSelection) :
    endOf path (first ++ others) = endOf path first ++ endOf path others := by
  induction path generalizing first others with
  | nil => rfl
  | cons mark path ih => rw [endOf, signed_append, List.flatMap_append, ih, endOf, endOf]

theorem endOf_flatMap (path : SelectionPath) (tops : List BoundSelection) (inner : BoundSelection → List BoundSelection) :
    endOf path (tops.flatMap inner) = tops.flatMap fun top => endOf path (inner top) := by
  induction tops with
  | nil => exact endOf_nil path
  | cons top rest ih => rw [List.flatMap_cons, endOf_append, ih, List.flatMap_cons]

/-- The paths of a level are those to the selections right below the ends of shorter ones. -/
theorem hasPath_iff {path : SelectionPath} {mark : FieldId × Option TypeId × String} {level : List BoundSelection} :
    HasPath level (path ++ [mark]) ↔ mark ∈ (endOf path level).map signature := by
  induction path generalizing level with
  | nil =>
      rw [List.nil_append, endOf, List.mem_map]
      constructor
      · intro h
        cases h with
        | node mem => exact ⟨_, mem, rfl⟩
        | under _ rest => cases rest
      · rintro ⟨selection, hmem, rfl⟩
        exact .node hmem
  | cons first path ih =>
      have hsplit : HasPath level (first :: (path ++ [mark])) ↔
          ∃ selection ∈ signed first level, HasPath selection.children (path ++ [mark]) := by
        simp only [mem_signed]
        constructor
        · intro h
          cases path with
          | nil =>
              cases h with
              | under mem rest => exact ⟨_, ⟨mem, rfl⟩, rest⟩
          | cons second path =>
              cases h with
              | under mem rest => exact ⟨_, ⟨mem, rfl⟩, rest⟩
        · rintro ⟨selection, ⟨hmem, rfl⟩, hrest⟩
          exact .under hmem hrest
      simp only [List.cons_append, hsplit, ih, endOf, endOf_flatMap, List.map_flatMap, List.mem_flatMap]

theorem not_hasPath_nil {level : List BoundSelection} : ¬ HasPath level [] :=
  fun h => nomatch h

/-- A path begins with a selection of the level, and either ends there or goes on below it. -/
theorem HasPath.exists_top {level : List BoundSelection} {mark : FieldId × Option TypeId × String}
    {path : SelectionPath} (h : HasPath level (mark :: path)) :
    ∃ selection ∈ level, selection.signature = mark ∧ (path = [] ∨ HasPath selection.children path) := by
  cases h with
  | node mem => exact ⟨_, mem, rfl, Or.inl rfl⟩
  | under mem rest => exact ⟨_, mem, rfl, Or.inr rest⟩

/-- A level has no paths but those of another one. -/
def PathsIn (level others : List BoundSelection) : Prop :=
  ∀ path, HasPath level path → HasPath others path

namespace PathsIn

variable {level others whole : List BoundSelection}

theorem refl (level : List BoundSelection) : PathsIn level level :=
  fun _ h => h

theorem trans (h : PathsIn level others) (hnext : PathsIn others whole) : PathsIn level whole :=
  fun path hpath => hnext path (h path hpath)

theorem of_subset (h : level ⊆ others) : PathsIn level others := by
  intro path hpath
  cases hpath with
  | node mem => exact .node (h mem)
  | under mem rest => exact .under (h mem) rest

theorem append (h : PathsIn level whole) (hothers : PathsIn others whole) : PathsIn (level ++ others) whole := by
  intro path hpath
  cases hpath with
  | node mem => exact (List.mem_append.mp mem).elim (fun hmem => h _ (.node hmem)) fun hmem => hothers _ (.node hmem)
  | under mem rest =>
      exact (List.mem_append.mp mem).elim (fun hmem => h _ (.under hmem rest)) fun hmem => hothers _ (.under hmem rest)

/-- A selection has no paths but those of one with its signature, when this is so for what is below them. -/
theorem of_children {selection other : BoundSelection} (hsame : other.signature = selection.signature)
    (hbelow : PathsIn selection.children other.children) : PathsIn [selection] [other] := by
  intro path hpath
  cases hpath with
  | node mem =>
      rw [List.mem_singleton.mp mem, ← hsame]
      exact .node (List.mem_singleton_self other)
  | under mem rest =>
      obtain rfl := List.mem_singleton.mp mem
      rw [← hsame]
      exact .under (List.mem_singleton_self other) (hbelow _ rest)

end PathsIn

theorem mem_firstsOf {path : SelectionPath} {mark : FieldId × Option TypeId × String}
    {level : List BoundSelection} :
    mark ∈ (firstsOf path level).map signature ↔ mark ∈ (endOf path level).map signature := by
  have hbare : ((endOf path level).map bare).map signature = (endOf path level).map signature := by
    rw [List.map_map]
    rfl
  rw [← hbare, firstsOf, List.mem_map, List.mem_map]
  constructor
  · rintro ⟨selection, hmem, hmark⟩
    exact ⟨selection, (Keyed.mem_firsts hmem).1, hmark⟩
  · rintro ⟨selection, hmem, rfl⟩
    obtain ⟨first, hfirst, hsame⟩ := @Keyed.exists_first _ _ _ (fun other => some (signature other))
      (fun _ => false) _ _ _ hmem rfl rfl
    exact ⟨first, hfirst, Option.some.inj hsame⟩

/-! ### Levels that paths do not tell apart -/

/-- Two levels show the same right below the end of any path. -/
def Alike (first second : List BoundSelection) : Prop :=
  ∀ path, firstsOf path first = firstsOf path second

namespace Alike

variable {first second third others others' : List BoundSelection}

theorem refl (level : List BoundSelection) : Alike level level :=
  fun _ => rfl

theorem trans (h : Alike first second) (hnext : Alike second third) : Alike first third :=
  fun path => (h path).trans (hnext path)

theorem append (h : Alike first second) (hothers : Alike others others') :
    Alike (first ++ others) (second ++ others') := by
  intro path
  have hfirst := h path
  have hrest := hothers path
  unfold firstsOf at hfirst hrest ⊢
  rw [endOf_append, endOf_append, List.map_append, List.map_append]
  exact Keyed.firsts_append_congr hfirst hrest

theorem hasPath_iff (h : Alike first second) (path : SelectionPath) : HasPath first path ↔ HasPath second path := by
  rcases List.eq_nil_or_concat path with rfl | ⟨path, mark, rfl⟩
  · exact iff_of_false not_hasPath_nil not_hasPath_nil
  · rw [List.concat_eq_append, BoundSelection.hasPath_iff, BoundSelection.hasPath_iff, ← mem_firstsOf, ← mem_firstsOf, h path]

end Alike

/-- Selections that differ in what is below them alone, and there in nothing that paths tell apart. -/
theorem alike_singleton {first second : BoundSelection} (hbare : first.bare = second.bare)
    (hchildren : Alike first.children second.children) : Alike [first] [second] := by
  have hsame : first.signature = second.signature := by
    show first.bare.signature = second.bare.signature
    rw [hbare]
  intro path
  cases path with
  | nil =>
      show Keyed.firsts _ _ [first.bare] = Keyed.firsts _ _ [second.bare]
      rw [hbare]
  | cons mark path =>
      show firstsOf path ((signed mark [first]).flatMap children) = firstsOf path ((signed mark [second]).flatMap children)
      by_cases hmark : first.signature = mark
      · rw [signed_cons_of_eq hmark, signed_cons_of_eq (hsame.symm.trans hmark)]
        show firstsOf path (first.children ++ []) = firstsOf path (second.children ++ [])
        rw [List.append_nil, List.append_nil]
        exact hchildren path
      · rw [signed_cons_of_ne hmark, signed_cons_of_ne fun h => hmark (hsame.trans h)]

/-- A selection that has taken over the children of a later one stands for both. -/
theorem alike_of_repeats {earlier selection : BoundSelection} {children : List BoundSelection}
    {rest : List BoundSelection} (hsame : earlier.signature = selection.signature)
    (hnew : earlier.signature ∉ rest.map signature)
    (hchildren : Alike children (earlier.children ++ selection.children)) :
    Alike ({ earlier with children := children } :: rest) (earlier :: (rest ++ [selection])) := by
  intro path
  cases path with
  | nil =>
      have hadded := @Keyed.firsts_append_known _ _ _ (fun other => some (signature other))
        ((earlier :: rest).map bare) selection.bare ⟨earlier.bare, List.mem_cons_self, congrArg some hsame⟩
      rw [← List.map_singleton, ← List.map_append] at hadded
      exact hadded.symm
  | cons mark path =>
      show firstsOf path ((signed mark _).flatMap BoundSelection.children) =
        firstsOf path ((signed mark (earlier :: (rest ++ [selection]))).flatMap BoundSelection.children)
      by_cases hmark : earlier.signature = mark
      · have hnone : signed mark rest = [] := signed_eq_nil (hmark ▸ hnew)
        have htaken : ({ earlier with children := children } : BoundSelection).signature = mark := hmark
        rw [signed_cons_of_eq htaken, hnone, signed_cons_of_eq hmark, signed_append, hnone,
          signed_cons_of_eq (hsame.symm.trans hmark)]
        show firstsOf path (children ++ []) = firstsOf path (earlier.children ++ (selection.children ++ []))
        rw [List.append_nil, List.append_nil]
        exact hchildren path
      · have htaken : ({ earlier with children := children } : BoundSelection).signature ≠ mark := hmark
        rw [signed_cons_of_ne htaken, signed_cons_of_ne hmark, signed_append,
          signed_cons_of_ne fun h => hmark (hsame.trans h)]
        show _ = firstsOf path ((signed mark rest ++ []).flatMap BoundSelection.children)
        rw [List.append_nil]

/-- A level that has absorbed a selection shows what both show. -/
theorem alike_absorbOne {merged : List BoundSelection} (hmerged : (merged.map signature).Nodup)
    {selection : BoundSelection} (hbelow : ∀ earlier ∈ merged,
      Alike (absorb earlier.children selection.children) (earlier.children ++ selection.children)) :
    Alike (absorbOne merged selection) (merged ++ [selection]) := by
  rw [absorbOne_eq]
  induction merged with
  | nil => exact .refl [selection]
  | cons earlier rest ih =>
      obtain ⟨hnew, hrest⟩ := List.nodup_cons.mp hmerged
      unfold updateFirst
      split
      · next hrepeats =>
          exact alike_of_repeats (repeats_iff.mp hrepeats) hnew (hbelow earlier List.mem_cons_self)
      · exact .append (.refl [earlier]) (ih hrest fun other hmem => hbelow other (List.mem_cons_of_mem _ hmem))

/-- A level that has absorbed others shows what all of them show. -/
theorem alike_absorb (others : List BoundSelection) : ∀ {merged}, Apart merged →
    (∀ other ∈ others, Apart other.children) → Alike (absorb merged others) (merged ++ others) := by
  induction others using level_induction with
  | step level below =>
      induction level with
      | nil =>
          intro merged _ _
          rw [List.append_nil]
          exact .refl merged
      | cons selection rest ih =>
          intro merged hmerged hchildren
          have hselection := hchildren selection List.mem_cons_self
          have hone : Alike (absorbOne merged selection) (merged ++ [selection]) :=
            alike_absorbOne hmerged.here fun earlier hmem =>
              below selection List.mem_cons_self (hmerged.children earlier hmem) hselection.children
          have hapart : Apart (absorbOne merged selection) :=
            apart_absorb [selection] hmerged (List.forall_mem_singleton.mpr hselection)
          rw [absorb_cons, List.append_cons]
          exact (ih (fun other hmem => below other (List.mem_cons_of_mem _ hmem)) hapart fun other hmem =>
            hchildren other (List.mem_cons_of_mem _ hmem)).trans (hone.append (.refl rest))

/-- Merging the levels of selections keeps what they show. -/
theorem alike_mergeBelowAll (selections : List BoundSelection) : Alike (mergeBelowAll selections) selections := by
  induction selections using level_induction with
  | step level below =>
      induction level with
      | nil => exact .refl []
      | cons selection rest ih =>
          have hchildren : Alike selection.mergeBelow.children selection.children := by
            rw [children_mergeBelow]
            exact (alike_absorb _ .nil (apart_mergeBelowAll selection.children)).trans
              (below selection List.mem_cons_self)
          have hbare : selection.mergeBelow.bare = selection.bare := by
            cases selection
            rfl
          rw [mergeBelowAll]
          exact (alike_singleton hbare hchildren).append
            (ih fun other hmem => below other (List.mem_cons_of_mem _ hmem))

/-- The selections right below the end of a path in a tree without repetitions are those below one selection,
if any. -/
theorem Apart.endOf {level : List BoundSelection} (h : Apart level) (path : SelectionPath) :
    Apart (endOf path level) := by
  induction path generalizing level with
  | nil => exact h
  | cons mark path ih =>
      refine ih ?_
      have hsigned : (signed mark level).length ≤ 1 := by
        have hcount := List.nodup_iff_count_le_one.mp h.here mark
        rw [List.count_eq_length_filter, List.filter_map, List.length_map] at hcount
        refine Nat.le_trans (Nat.le_of_eq (congrArg _ (List.filter_congr fun selection _ => ?_))) hcount
        exact Bool.eq_iff_iff.mpr (by simp)
      cases hrows : signed mark level with
      | nil => exact .nil
      | cons selection rest =>
          rw [hrows, List.length_cons] at hsigned
          have hnone : rest = [] := List.eq_nil_of_length_eq_zero (by omega)
          have hmem : selection ∈ level := (mem_signed.mp (hrows ▸ List.mem_cons_self)).1
          rw [hnone, List.flatMap_singleton]
          exact h.children selection hmem

/-- In a tree without repetitions every selection is the first of its signature. -/
theorem Apart.firstsOf_eq {level : List BoundSelection} (h : Apart level) (path : SelectionPath) :
    firstsOf path level = (BoundSelection.endOf path level).map bare := by
  refine @Keyed.firsts_of_nodup _ _ _ signature _ ?_ _ fun _ _ => rfl
  rw [List.map_map]
  exact (h.endOf path).here

end BoundSelection

namespace Schema

open BoundSelection

/-- Merging loses and duplicates nothing. In what a request binds to no two siblings repeat each other. It has
the paths of the one expansion of its operation, in which nothing is merged, and no others. Right below the
end of each path stands, for each signature that the expansion has there, the first selection of it, with
its name, its alias and its arguments, in the order of these; merging them again changes nothing, as it
changes no merged list. -/
theorem merging_keeps_paths {schema : Schema} {maxDepth : Option Nat} {document : Document} {request : Request}
    {level : List BoundSelection} (h : schema.bind maxDepth document request = .ok level) :
    (∃ expanded, schema.Expands document request expanded ∧
      (∀ other, schema.Expands document request other → other = expanded) ∧
      (∀ path, HasPath level path ↔ HasPath expanded path) ∧
      ∀ path, (endOf path level).map bare =
        Keyed.firsts (fun selection => some selection.signature) (fun _ => false) ((endOf path expanded).map bare)) ∧
    Apart level ∧ (∀ path, merge (endOf path level) = endOf path level) ∧
    ∀ selections, merge (merge selections) = merge selections := by
  have hfree : schema.bind none document request = .ok level := by
    cases maxDepth with
    | none => exact h
    | some limit =>
        have hlimited := schema.limited_of_bind document request limit
        rw [h] at hlimited
        exact hlimited.free_of_ok
  obtain ⟨expanded, hexpanded, rfl⟩ := exists_expands hfree
  have hapart : Apart (merge (mergeBelowAll expanded)) :=
    apart_absorb _ .nil (apart_mergeBelowAll expanded)
  have halike : Alike (merge (mergeBelowAll expanded)) expanded :=
    (alike_absorb _ .nil (apart_mergeBelowAll expanded)).trans (alike_mergeBelowAll expanded)
  refine ⟨⟨expanded, hexpanded, fun other hother => hother.unique hexpanded, halike.hasPath_iff, fun path => ?_⟩,
    hapart, fun path => merge_of_nodup (hapart.endOf path).here, merge_merge⟩
  rw [← hapart.firstsOf_eq path]
  exact halike path

/-- Friends of animals selected three times, once through a fragment: they stand before the name, where they
came first, with what all three select. -/
theorem animals_merging_keeps_paths :
    let friends : Fragment :=
      ⟨"Friends", "Animal", [.field none "friend" [] [.field none "name" [] [], .field none "id" [] []]]⟩
    let document : Document :=
      ⟨[⟨.query, none, [], [.field none "animals" [] [.field none "friend" [] [.field none "id" [] []]],
        .field none "animals" [] [.field none "name" [] [], .spread "Friends", .field none "friend" [] []]]⟩],
        [friends]⟩
    ∃ level, Schema.animals.bind (some 3) document .plain = .ok level ∧
      (level.flatMap children).map (fun selection => (selection.outputName, selection.children.map outputName)) =
        [("friend", ["id", "name"]), ("name", [])] ∧
      (∃ expanded, Schema.animals.Expands document .plain expanded ∧
        ∀ path, HasPath level path ↔ HasPath expanded path) ∧
      Apart level := by
  intro friends document
  have hshown : ((Schema.animals.bind (some 3) document .plain).map fun level => (level.flatMap children).map
      fun selection => (selection.outputName, selection.children.map outputName)).toOption =
        some [("friend", ["id", "name"]), ("name", [])] := by decide +kernel
  obtain ⟨level, hlevel, hmerged⟩ := Outcome.map_ok_iff.mp (Outcome.ok_of_toOption hshown)
  obtain ⟨⟨expanded, hexpanded, _, hpaths, _⟩, hapart, _⟩ := merging_keeps_paths hlevel
  exact ⟨level, hlevel, hmerged, ⟨expanded, hexpanded, hpaths⟩, hapart⟩

end Schema

end GraphQuery
