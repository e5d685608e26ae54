import GraphQuery.Proofs.Schema.Offer
import GraphQuery.Proofs.Schema.Parent
import GraphQuery.Proofs.Schema.Search

/-! Precedence. Under a name, a type shows the field of the first of its sources that offers one: its own,
else that of the nearest type that it extends, else that of the supertype which the search meets first. The
search goes from parent to parent, so that the types which it has met before lie on a path to the first
one. -/

namespace GraphQuery

open Relation (TransGen ReflTransGen)

namespace Hierarchy

section

variable {step : TypeId → TypeId → Prop} {start : TypeId}

/-- Each of some types is one step away from a start or from an earlier one of them. -/
inductive Stepwise (step : TypeId → TypeId → Prop) (start : TypeId) : List TypeId → Prop where
  | nil : Stepwise step start []
  | concat {ids : List TypeId} {last next : TypeId} : Stepwise step start ids → last ∈ start :: ids →
      step last next → Stepwise step start (ids ++ [next])

/-- Steps lead to a type, and the types on the way lack a property. -/
def MetFirst (step : TypeId → TypeId → Prop) (holds : TypeId → Prop) (start id : TypeId) : Prop :=
  ∃ last, ReflTransGen (fun type next => step type next ∧ ¬holds next) start last ∧ step last id

theorem MetFirst.mono {step' : TypeId → TypeId → Prop} {holds : TypeId → Prop} {id : TypeId}
    (h : MetFirst step holds start id) (hstep : ∀ type next, step type next → step' type next) :
    MetFirst step' holds start id := by
  obtain ⟨last, hpath, hlast⟩ := h
  have hsteps : ∀ type next, step type next ∧ ¬holds next → step' type next ∧ ¬holds next :=
    fun type next hnext => ⟨hstep type next hnext.1, hnext.2⟩
  exact ⟨last, ReflTransGen.mono hsteps _ _ hpath, hstep last id hlast⟩

/-- To the first of some types that has a property, steps lead past types without it. -/
theorem Stepwise.metFirst {ids before after : List TypeId} {id : TypeId} {holds : TypeId → Prop}
    (h : Stepwise step start ids) (hsplit : ids = before ++ id :: after)
    (hbefore : ∀ other ∈ before, ¬holds other) : MetFirst step holds start id := by
  induction h generalizing before id after with
  | nil => simp at hsplit
  | @concat ids last next _ hlast hstep ih =>
      rcases List.eq_nil_or_concat after with rfl | ⟨rest, other, rfl⟩
      · -- the type itself came last, so that all the others are before it
        obtain ⟨rfl, hnext⟩ := List.append_inj' hsplit rfl
        cases hnext
        rcases List.mem_cons.mp hlast with rfl | hmem
        · exact ⟨last, .refl, hstep⟩
        · obtain ⟨earlier, later, rfl⟩ := List.append_of_mem hmem
          obtain ⟨first, hpath, hfirst⟩ :=
            ih rfl fun other hother => hbefore other (List.mem_append_left _ hother)
          exact ⟨last, hpath.tail ⟨hfirst, hbefore last hmem⟩, hstep⟩
      · have hshort : ids ++ [next] = (before ++ id :: rest) ++ [other] := by simpa using hsplit
        exact ih (List.append_inj' hshort rfl).1 hbefore

end

/-! ### The search for supertypes -/

section

variable {parents : TypeId → List TypeId} {start : TypeId}

theorem Search.stepwise {seen stack all : List TypeId} (h : Search parents start seen stack (some all))
    (hseen : Stepwise (Names parents) start seen)
    (hstack : ∀ type ∈ stack, ∃ last ∈ start :: seen, Names parents last type) :
    Stepwise (Names parents) start all := by
  generalize hfound : some all = found at h
  induction h with
  | done =>
      cases hfound
      exact hseen
  | cyclic => cases hfound
  | skip _ _ _ ih => exact ih hseen (List.forall_mem_cons.mp hstack).2 hfound
  | @visit seen rest next _ _ _ _ ih =>
      obtain ⟨⟨last, hlast, hnext⟩, hrest⟩ := List.forall_mem_cons.mp hstack
      refine ih (hseen.concat hlast hnext) (fun type hmem => ?_) hfound
      rcases List.mem_append.mp hmem with hmem | hmem
      · exact ⟨next, by simp, List.mem_reverse.mp hmem⟩
      · obtain ⟨last, hlast, hstep⟩ := hrest type hmem
        exact ⟨last, by simp only [List.mem_cons, List.mem_append] at hlast ⊢; tauto, hstep⟩

/-- The supertypes of a type are found step by step. -/
theorem stepwise_supertypes? {relations : List Relations} {id : TypeId} {all : List TypeId}
    (h : supertypes? relations id = some all) : Stepwise (Names (parentsOf relations)) id all := by
  refine (h ▸ search_supertypes? relations id).stepwise .nil fun parent hmem => ?_
  exact ⟨id, List.mem_cons_self, List.mem_reverse.mp hmem⟩

end

/-! ### The types that one extends -/

/-- One type extends another one. -/
def Extends (relations : List Relations) (type ancestor : TypeId) : Prop :=
  (relations.getD type default).ancestor? = some ancestor

section

variable {relations : List Relations} {start : TypeId}

theorem stepwise_ancestors {fuel : Nat} {chain : List TypeId} {next? : Option TypeId}
    (hchain : Stepwise (Extends relations) start chain)
    (hnext : ∀ next ∈ next?, ∃ last ∈ start :: chain, Extends relations last next) :
    Stepwise (Extends relations) start (ancestors relations fuel chain next?) := by
  induction fuel generalizing chain next? with
  | zero => exact hchain
  | succ fuel ih =>
      cases next? with
      | none => exact hchain
      | some next =>
          obtain ⟨last, hlast, hstep⟩ := hnext next rfl
          rw [ancestors]
          split
          · exact hchain
          · refine ih (hchain.concat hlast hstep) fun parent hparent => ?_
            exact ⟨next, by simp, hparent⟩

/-- Places that differ and lie below their number are all the places below it. -/
theorem mem_of_nodup {ids : List TypeId} {count : Nat} (hnodup : ids.Nodup) (hlt : ∀ id ∈ ids, id < count)
    (hlength : count ≤ ids.length) {id : TypeId} (hid : id < count) : id ∈ ids := by
  have hsubset : ids ⊆ List.range count := fun other hmem => List.mem_range.mpr (hlt other hmem)
  have hperm := (List.subperm_of_subset hnodup hsubset).perm_of_length_le (by rwa [List.length_range])
  exact hperm.mem_iff.mpr (List.mem_range.mpr hid)

theorem subset_ancestors (fuel : Nat) (chain : List TypeId) (next? : Option TypeId) :
    chain ⊆ ancestors relations fuel chain next? := by
  induction fuel generalizing chain next? with
  | zero => exact List.Subset.refl chain
  | succ fuel ih =>
      cases next? with
      | none => exact List.Subset.refl chain
      | some next =>
          rw [ancestors]
          split
          · exact List.Subset.refl chain
          · exact List.Subset.trans (List.subset_append_left chain [next]) (ih _ _)

/-- With a step left for each type that is not on it yet, the chain runs to its end. -/
theorem ancestors_closed (hparent : ∀ type ancestor, Extends relations type ancestor →
      ancestor < relations.length) {fuel : Nat} {chain : List TypeId} {next? : Option TypeId}
    (hfuel : relations.length ≤ fuel + chain.length) (hnodup : chain.Nodup)
    (hchain : ∀ id ∈ chain, id < relations.length) (hnext : ∀ next ∈ next?, next < relations.length)
    (hopen : ∀ type ∈ chain, ∀ ancestor, Extends relations type ancestor →
      ancestor ∈ chain ∨ ancestor ∈ next?) :
    (∀ next ∈ next?, next ∈ ancestors relations fuel chain next?) ∧
      ∀ type ∈ ancestors relations fuel chain next?, ∀ ancestor, Extends relations type ancestor →
        ancestor ∈ ancestors relations fuel chain next? := by
  have hend {chain : List TypeId} {next? : Option TypeId} (hopen : ∀ type ∈ chain, ∀ ancestor,
        Extends relations type ancestor → ancestor ∈ chain ∨ ancestor ∈ next?)
      (hknown : ∀ next ∈ next?, next ∈ chain) : (∀ next ∈ next?, next ∈ chain) ∧
        ∀ type ∈ chain, ∀ ancestor, Extends relations type ancestor → ancestor ∈ chain :=
    ⟨hknown, fun type hmem ancestor hextends =>
      (hopen type hmem ancestor hextends).elim id (hknown ancestor)⟩
  induction fuel generalizing chain next? with
  | zero =>
      refine hend hopen fun next hmem => ?_
      exact mem_of_nodup hnodup hchain (by omega) (hnext next hmem)
  | succ fuel ih =>
      cases next? with
      | none => exact hend hopen nofun
      | some next =>
          rw [ancestors]
          by_cases hknown : next ∈ chain
          · rw [if_pos (List.contains_iff_mem.mpr hknown)]
            exact hend hopen fun other hother => by rwa [← Option.some.inj hother]
          · rw [if_neg fun hmem => hknown (List.contains_iff_mem.mp hmem)]
            have hlt := hnext next rfl
            refine ⟨fun other hother => ?_, (ih ?_ ?_ ?_ ?_ ?_).2⟩
            · rw [← Option.some.inj hother]
              exact subset_ancestors fuel _ _ (by simp)
            · rw [List.length_append, List.length_singleton]
              omega
            · exact hnodup.append (List.nodup_singleton next) (List.disjoint_singleton.mpr hknown)
            · rw [List.forall_mem_append, List.forall_mem_singleton]
              exact ⟨hchain, hlt⟩
            · exact fun ancestor hextends => hparent next ancestor hextends
            · intro type hmem ancestor hextends
              rcases List.mem_append.mp hmem with hmem | hmem
              · rcases hopen type hmem ancestor hextends with hold | hnew
                · exact Or.inl (List.mem_append_left _ hold)
                · rw [← Option.some.inj hnew]
                  exact Or.inl (by simp)
              · cases List.mem_singleton.mp hmem
                exact Or.inr hextends

/-- All types that one extends are on its chain. -/
theorem mem_ancestors (hparent : ∀ type ancestor, Extends relations type ancestor →
      ancestor < relations.length) {ancestor : TypeId} (h : TransGen (Extends relations) start ancestor) :
    ancestor ∈ ancestors relations relations.length [] (relations.getD start default).ancestor? := by
  obtain ⟨hnext, hclosed⟩ := @ancestors_closed relations hparent relations.length []
    (relations.getD start default).ancestor? (Nat.le_refl _) List.nodup_nil nofun (hparent start) nofun
  induction h with
  | single hextends => exact hnext _ hextends
  | tail _ hextends ih => exact hclosed _ ih _ hextends

end

end Hierarchy

/-! ### The first source -/

namespace Merge

/-- What is found first among some types is found first when each is kept once. -/
theorem findSome?_distinct {α : Type} (find : TypeId → Option α) (ids : List TypeId) :
    (distinct ids).findSome? find = ids.findSome? find := by
  have hfold (known : List TypeId) :
      (ids.foldl Hierarchy.addNew known).findSome? find = (known.findSome? find).or (ids.findSome? find) := by
    induction ids generalizing known with
    | nil => simp
    | cons id rest ih =>
        rw [List.foldl_cons, ih, List.findSome?_cons, Hierarchy.addNew]
        by_cases hknown : id ∈ known
        · rw [if_pos (List.contains_iff_mem.mpr hknown)]
          cases hfound : find id with
          | none => rfl
          | some found =>
              -- an item that has been kept already does not let the search pass
              have hsome : (known.findSome? find).isSome = true :=
                List.findSome?_isSome_iff.mpr ⟨id, hknown, by rw [hfound]; rfl⟩
              obtain ⟨first, hfirst⟩ := Option.isSome_iff_exists.mp hsome
              rw [hfirst, Option.some_or, Option.some_or]
        · rw [if_neg fun hmem => hknown (List.contains_iff_mem.mp hmem), List.findSome?_append,
            List.findSome?_singleton, Option.or_assoc]
          cases find id <;> rfl
  exact (hfold []).trans (Option.none_or)

section

variable (context : Context) (owner : TypeId) (name : String)

/-- The field of a name that a type takes from a source; unions pass on nothing. -/
def foundIn (source : TypeId) : Option FieldId :=
  if source == owner || (context.draft.type source).kind != .union then
    firstOf context (offeredBy context owner source) name
  else none

variable {context owner name} in
theorem foundIn_some {source : TypeId} {id : FieldId} (h : foundIn context owner name source = some id) :
    (source = owner ∨ (context.draft.type source).kind ≠ .union) ∧ id ∈ (context.draft.type source).fields ∧
      (context.field id).name = name ∧ ((context.field id).isTypename = true → source = owner) := by
  unfold foundIn at h
  split at h
  · next hkept =>
      obtain ⟨hmem, hname⟩ := firstOf_mem h
      obtain ⟨hown, hplace⟩ := List.mem_filter.mp hmem
      refine ⟨by simpa using hkept, hown, hname, fun htypename => ?_⟩
      simpa [htypename] using hplace
  · cases h

variable {context owner name} in
theorem foundIn_isSome {source : TypeId} {id : FieldId}
    (hkept : source = owner ∨ (context.draft.type source).kind ≠ .union)
    (hown : id ∈ (context.draft.type source).fields) (hname : (context.field id).name = name)
    (hplace : (context.field id).isTypename = true → source = owner) :
    ∃ first, foundIn context owner name source = some first := by
  have hoffered : id ∈ offeredBy context owner source := by
    rw [offeredBy, List.mem_filter]
    refine ⟨hown, ?_⟩
    by_cases htypename : (context.field id).isTypename = true
    · simp [hplace htypename]
    · simp [htypename]
  rw [foundIn, if_pos (by simpa using hkept), ← hname]
  exact firstOf_isSome hoffered

/-- The types that a type extends, the nearest first. -/
def chainOf : List TypeId :=
  Hierarchy.ancestors context.relations context.relations.length [] (context.relations.getD owner default).ancestor?

/-- The first field of a name is the own one, else one of the chain, else one of the other supertypes, and
only then one of the subtypes or of the supertypes of these. -/
theorem firstOf_offered :
    firstOf context (offered context owner) name =
      (foundIn context owner name owner).or
        (((chainOf context owner).findSome? (foundIn context owner name)).or
          (((context.supertypesOf owner).findSome? (foundIn context owner name)).or
            ((context.subtypesOf owner ++ (context.subtypesOf owner).flatMap context.supertypesOf).findSome?
              (foundIn context owner name)))) := by
  have hfilter (keep : TypeId → Bool) (find : TypeId → Option FieldId) (ids : List TypeId) :
      (ids.filter keep).findSome? find = ids.findSome? fun id => if keep id then find id else none := by
    induction ids with
    | nil => rfl
    | cons id rest ih =>
        rw [List.filter_cons, List.findSome?_cons]
        cases keep id with
        | true => rw [if_pos rfl, if_pos rfl, List.findSome?_cons, ih]
        | false => exact ih
  calc firstOf context (offered context owner) name
      = (sources context owner).findSome? fun source => firstOf context (offeredBy context owner source) name := by
        rw [firstOf, offered, List.find?_flatMap]
        rfl
    _ = (owner :: chainOf context owner ++ context.supertypesOf owner ++ context.subtypesOf owner ++
          (context.subtypesOf owner).flatMap context.supertypesOf).findSome? (foundIn context owner name) := by
        rw [sources, hfilter, findSome?_distinct]
        rfl
    _ = _ := by
        simp only [List.cons_append, List.append_assoc, List.findSome?_cons, List.findSome?_append]
        cases foundIn context owner name owner <;> rfl

end

end Merge

end GraphQuery
