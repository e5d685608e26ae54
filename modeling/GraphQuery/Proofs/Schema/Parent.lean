import GraphQuery.Proofs.Outcome
import GraphQuery.Proofs.Schema.Search
import Mathlib.Data.List.GetD

/-! Parents. Where the references of a draft stand for types of kinds that they allow, its relations are
worked out without a fault, and the parents of a type are those that it extends or conforms to, and the
unions that it is a member of. -/

namespace GraphQuery

/-- The references of a draft stand for types of kinds that they allow. -/
structure Draft.Resolved (draft : Draft) : Prop where
  target : ∀ field ∈ draft.fields, (draft.typeId? field.target.typeName).isSome = true
  parameter : ∀ field ∈ draft.fields, ∀ parameter ∈ field.parameters,
    draft.rules.contains parameter.type.innermost = true
  ancestor : ∀ type ∈ draft.types, ∀ name ∈ type.shape.parent?,
    ∃ id ∈ Hierarchy.resolve? draft name, (draft.type id).kind.isLeaf = false
  interface : ∀ type ∈ draft.types, ∀ name ∈ type.shape.interfaces,
    ∃ id ∈ Hierarchy.resolve? draft name, (draft.type id).kind.isImplementable = true

instance (draft : Draft) : Decidable draft.Resolved :=
  decidable_of_iff
    ((∀ field ∈ draft.fields, (draft.typeId? field.target.typeName).isSome = true) ∧
      (∀ field ∈ draft.fields, ∀ parameter ∈ field.parameters,
        draft.rules.contains parameter.type.innermost = true) ∧
      (∀ type ∈ draft.types, ∀ name ∈ type.shape.parent?,
        ∃ id ∈ Hierarchy.resolve? draft name, (draft.type id).kind.isLeaf = false) ∧
      ∀ type ∈ draft.types, ∀ name ∈ type.shape.interfaces,
        ∃ id ∈ Hierarchy.resolve? draft name, (draft.type id).kind.isImplementable = true)
    ⟨fun ⟨target, parameter, ancestor, interface⟩ => ⟨target, parameter, ancestor, interface⟩,
      fun h => ⟨h.target, h.parameter, h.ancestor, h.interface⟩⟩

theorem Draft.type_mem {draft : Draft} {id : TypeId} (h : id < draft.types.length) :
    draft.type id ∈ draft.types := by
  rw [type, List.getD_eq_getElem?_getD, List.getElem?_eq_getElem h]
  exact List.getElem_mem h

theorem Draft.type_of_le {draft : Draft} {id : TypeId} (h : draft.types.length ≤ id) :
    draft.type id = default := by
  rw [type, List.getD_eq_default _ _ h]

/-- A type that has members is there. -/
theorem Draft.lt_of_member {draft : Draft} {id member : TypeId} (h : member ∈ (draft.type id).members) :
    id < draft.types.length := by
  by_contra hge
  rw [type_of_le (Nat.le_of_not_lt hge)] at h
  cases h

namespace Hierarchy

theorem mem_addNew {ids : List TypeId} {id other : TypeId} :
    other ∈ addNew ids id ↔ other ∈ ids ∨ other = id := by
  unfold addNew
  split
  · next hknown =>
      constructor
      · exact Or.inl
      · rintro (hmem | rfl)
        · exact hmem
        · exact List.contains_iff_mem.mp hknown
  · rw [List.mem_append, List.mem_singleton]

theorem mem_foldl_addNew {more ids : List TypeId} {id : TypeId} :
    id ∈ more.foldl addNew ids ↔ id ∈ ids ∨ id ∈ more := by
  induction more generalizing ids with
  | nil => simp
  | cons first rest ih => rw [List.foldl_cons, ih, mem_addNew, List.mem_cons, or_assoc]

theorem mem_addParents {own : Relations} {known : List TypeId} {parent : TypeId} :
    parent ∈ addParents own known ↔
      parent ∈ known ∨ own.ancestor? = some parent ∨ parent ∈ own.interfaces := by
  rw [addParents, mem_foldl_addNew, List.mem_append, Option.mem_toList, or_assoc]

/-! ### The relations that a type itself declares -/

section

variable {draft : Draft} {type : DraftType}

/-- The relations that a type itself declares, unknown names left out. -/
def ownRelations (draft : Draft) (type : DraftType) : Relations where
  ancestor? := type.shape.parent?.bind (resolve? draft)
  interfaces := (type.shape.interfaces.filterMap (resolve? draft)).foldl addNew type.interfaces
  parents := []

theorem resolveAncestor_ok (h : ∀ name ∈ type.shape.parent?,
      ∃ id ∈ resolve? draft name, (draft.type id).kind.isLeaf = false) :
    resolveAncestor draft type = .ok (ownRelations draft type).ancestor? := by
  unfold resolveAncestor ownRelations
  cases hparent : type.shape.parent? with
  | none => rfl
  | some name =>
      obtain ⟨id, hid, hkind⟩ := h name hparent
      rw [Option.mem_def] at hid
      simp only [resolve, hid, Option.bind_some]
      exact if_neg (Bool.eq_false_iff.mp hkind)

theorem foldlM_resolveInterface {names : List String} {known : List TypeId}
    (h : ∀ name ∈ names, ∃ id ∈ resolve? draft name, (draft.type id).kind.isImplementable = true) :
    names.foldlM (resolveInterface draft type) known =
      .ok ((names.filterMap (resolve? draft)).foldl addNew known) := by
  induction names generalizing known with
  | nil => rfl
  | cons name rest ih =>
      obtain ⟨⟨id, hid, hkind⟩, hrest⟩ := List.forall_mem_cons.mp h
      rw [Option.mem_def] at hid
      have hstep : resolveInterface draft type known name = .ok (addNew known id) := by
        simp only [resolveInterface, resolve, hid]
        exact if_pos hkind
      rw [List.foldlM_cons, hstep, List.filterMap_cons_some hid, List.foldl_cons]
      exact ih hrest

theorem relationsOf_ok (h : draft.Resolved) (hmem : type ∈ draft.types) :
    relationsOf draft type = .ok (ownRelations draft type) := by
  rw [relationsOf, resolveAncestor_ok (h.ancestor type hmem)]
  change (type.shape.interfaces.foldlM (resolveInterface draft type) type.interfaces >>= _) = _
  rw [foldlM_resolveInterface (h.interface type hmem)]
  rfl

/-- A type itself names another one as its parent. -/
def NamesParent (draft : Draft) (type : DraftType) (parent : TypeId) : Prop :=
  (∃ name, type.shape.parent? = some name ∧ resolve? draft name = some parent) ∨
    (∃ name ∈ type.shape.interfaces, resolve? draft name = some parent) ∨ parent ∈ type.interfaces

theorem mem_addParents_own {known : List TypeId} {parent : TypeId} :
    parent ∈ addParents (ownRelations draft type) known ↔
      parent ∈ known ∨ NamesParent draft type parent := by
  rw [mem_addParents, ownRelations, mem_foldl_addNew, Option.bind_eq_some_iff, List.mem_filterMap,
    NamesParent, or_comm (a := parent ∈ type.interfaces)]

end

/-! ### The parents of all types -/

theorem mem_getD_modify {lists : List (List TypeId)} {change : List TypeId → List TypeId}
    {place id : TypeId} (hid : id < lists.length) :
    (lists.modify place change).getD id [] =
      if place = id then change (lists.getD id []) else lists.getD id [] := by
  rw [List.getD_eq_getElem?_getD, List.getD_eq_getElem?_getD, List.getElem?_modify,
    List.getElem?_eq_getElem hid]
  rfl

theorem length_addMembers (union : TypeId) (members : List TypeId) (parents : List (List TypeId)) :
    (members.foldl (addMember union) parents).length = parents.length := by
  induction members generalizing parents with
  | nil => rfl
  | cons first rest ih => rw [List.foldl_cons, ih, addMember, List.length_modify]

theorem mem_addMembers {union : TypeId} {members : List TypeId} {parents : List (List TypeId)}
    {id parent : TypeId} (hid : id < parents.length) :
    parent ∈ (members.foldl (addMember union) parents).getD id [] ↔
      parent ∈ parents.getD id [] ∨ parent = union ∧ id ∈ members := by
  induction members generalizing parents with
  | nil => simp
  | cons first rest ih =>
      rw [List.foldl_cons, ih (by rwa [addMember, List.length_modify]), addMember, mem_getD_modify hid,
        List.mem_cons]
      by_cases heq : first = id
      · rw [if_pos heq, mem_addNew]
        simp only [heq, true_or, and_true]
        tauto
      · rw [if_neg heq]
        simp only [Ne.symm heq, false_or]

section

variable {draft : Draft}

/-- The parents after the first types have been gone through: what these name themselves and the unions
among them. -/
theorem relations_upto (h : draft.Resolved) {count : Nat} (hcount : count ≤ draft.types.length) :
    ∃ parents, (List.range count).foldlM (relationsStep draft)
        ([], List.replicate draft.types.length []) =
          .ok ((List.range count).map fun id => ownRelations draft (draft.type id), parents) ∧
      parents.length = draft.types.length ∧
      ∀ id < draft.types.length, ∀ parent, parent ∈ parents.getD id [] ↔
        id < count ∧ NamesParent draft (draft.type id) parent ∨
          parent < count ∧ id ∈ (draft.type parent).members := by
  induction count with
  | zero =>
      refine ⟨_, rfl, List.length_replicate, fun id hid parent => ?_⟩
      rw [List.getD_replicate _ hid]
      simp
  | succ count ih =>
      obtain ⟨parents, hsteps, hlength, hparents⟩ := ih (Nat.le_of_succ_le hcount)
      have hown := relationsOf_ok h (Draft.type_mem hcount)
      refine ⟨(draft.type count).members.foldl (addMember count)
        (parents.modify count (addParents (ownRelations draft (draft.type count)))), ?_, ?_, ?_⟩
      · rw [List.range_succ, List.foldlM_append, hsteps, List.map_append]
        change (relationsStep draft _ count >>= _) = _
        simp only [relationsStep, hown]
        rfl
      · rw [length_addMembers, List.length_modify, hlength]
      · intro id hid parent
        -- the type just gone through adds its own parents to itself, and itself to those of its members
        have hunion : parent < count + 1 ∧ id ∈ (draft.type parent).members ↔
            parent < count ∧ id ∈ (draft.type parent).members ∨
              parent = count ∧ id ∈ (draft.type count).members := by
          rw [Nat.lt_succ_iff_lt_or_eq, or_and_right]
          exact or_congr_right (and_congr_right fun heq => by rw [heq])
        have hself : id < count + 1 ∧ NamesParent draft (draft.type id) parent ↔
            id < count ∧ NamesParent draft (draft.type id) parent ∨
              id = count ∧ NamesParent draft (draft.type id) parent := by
          rw [Nat.lt_succ_iff_lt_or_eq, or_and_right]
        rw [mem_addMembers (by rwa [List.length_modify, hlength]), mem_getD_modify (hlength.symm ▸ hid),
          hunion, hself]
        by_cases heq : count = id
        · subst heq
          rw [if_pos rfl, mem_addParents_own, hparents count hid]
          simp only [Nat.lt_irrefl, false_and, false_or, true_and]
          rw [or_comm (a := _ ∧ _), or_assoc]
        · rw [if_neg heq, hparents id hid]
          simp only [Ne.symm heq, false_and, or_false, or_assoc]

theorem parentsOf_zip {own : List Relations} {parents : List (List TypeId)}
    (hlength : own.length = parents.length) (id : TypeId) :
    parentsOf ((own.zip parents).map fun (own, parents) => { own with parents := parents }) id =
      parents.getD id [] := by
  rw [parentsOf, List.getD_eq_getElem?_getD, List.getD_eq_getElem?_getD, List.getElem?_map]
  by_cases hid : id < parents.length
  · rw [List.getElem?_eq_getElem (by rwa [List.length_zip, hlength, Nat.min_self]),
      List.getElem?_eq_getElem hid, List.getElem_zip]
    rfl
  · have hle : (own.zip parents).length ≤ id := by
      rw [List.length_zip, hlength, Nat.min_self]
      exact Nat.le_of_not_lt hid
    rw [List.getElem?_eq_none hle, List.getElem?_eq_none (Nat.le_of_not_lt hid)]
    rfl

/-- The relations are worked out where all references are resolved. The parents of a type are those that
it names itself and the unions that it is a member of. -/
theorem relations_ok (h : draft.Resolved)
    (hmembers : ∀ type ∈ draft.types, ∀ member ∈ type.members, member < draft.types.length) :
    ∃ found, relations draft = .ok found ∧ found.length = draft.types.length ∧
      ∀ id parent, parent ∈ parentsOf found id ↔
        NamesParent draft (draft.type id) parent ∨ id ∈ (draft.type parent).members := by
  obtain ⟨parents, hsteps, hlength, hparents⟩ := relations_upto h (Nat.le_refl _)
  have hmember {id union : TypeId} (hmem : id ∈ (draft.type union).members) :
      union < draft.types.length ∧ id < draft.types.length := by
    have hunion := Draft.lt_of_member hmem
    exact ⟨hunion, hmembers _ (Draft.type_mem hunion) id hmem⟩
  refine ⟨_, by rw [relations, hsteps]; rfl, by simp [hlength], fun id parent => ?_⟩
  rw [parentsOf_zip (by simp [hlength])]
  by_cases hid : id < draft.types.length
  · rw [hparents id hid]
    exact or_congr (and_iff_right hid) (and_iff_right_of_imp fun hmem => (hmember hmem).1)
  · rw [List.getD_eq_default _ _ (hlength.symm ▸ Nat.le_of_not_lt hid),
      Draft.type_of_le (Nat.le_of_not_lt hid)]
    refine iff_of_false List.not_mem_nil ?_
    rintro (hnames | hmem)
    · rcases hnames with ⟨_, hname, _⟩ | ⟨_, hname, _⟩ | hname <;> cases hname
    · exact hid (hmember hmem).2

theorem ancestors_upto {count : Nat} (hcount : count ≤ draft.types.length)
    {state : List Relations × List (List TypeId)}
    (h : (List.range count).foldlM (relationsStep draft) ([], List.replicate draft.types.length []) = .ok state) :
    state.1.length = count ∧ state.2.length = draft.types.length ∧
      ∀ id own, state.1[id]? = some own → ∀ parent, own.ancestor? = some parent →
        parent ∈ state.2.getD id [] := by
  induction count generalizing state with
  | zero =>
      cases h
      exact ⟨rfl, List.length_replicate, fun _ _ hown => by cases hown⟩
  | succ count ih =>
      rw [List.range_succ, List.foldlM_append] at h
      obtain ⟨earlier, hearlier, h⟩ := Outcome.bind_ok_iff.mp h
      obtain ⟨_, hstep, hpure⟩ := Outcome.bind_ok_iff.mp h
      cases hpure
      obtain ⟨own, _, hpure⟩ := Outcome.bind_ok_iff.mp hstep
      cases hpure
      obtain ⟨hown, hparents, hnamed⟩ := ih (Nat.le_of_succ_le hcount) hearlier
      refine ⟨by rw [List.length_append, hown]; rfl, ?_, fun id other hother parent hparent => ?_⟩
      · rw [length_addMembers, List.length_modify, hparents]
      · have hid : id < earlier.2.length := by
          rw [hparents]
          refine Nat.lt_of_lt_of_le ((List.getElem?_eq_some_iff.mp hother).1) ?_
          rw [List.length_append, hown]
          exact hcount
        rw [mem_addMembers (by rwa [List.length_modify]), mem_getD_modify hid]
        left
        rcases Nat.lt_or_ge id earlier.1.length with hlt | hge
        · rw [List.getElem?_append_left hlt] at hother
          have hold := hnamed id other hother parent hparent
          split
          · exact mem_addParents.mpr (Or.inl hold)
          · exact hold
        · rw [List.getElem?_append_right hge, List.getElem?_singleton] at hother
          split at hother
          · next hlast =>
              cases hother
              have heq : count = id := by omega
              rw [if_pos heq]
              exact mem_addParents.mpr (Or.inr (Or.inl hparent))
          · cases hother

/-- The type that another one extends is a parent of it. -/
theorem ancestor_mem_parents {found : List Relations} (h : relations draft = .ok found) {id parent : TypeId}
    (hancestor : (found.getD id default).ancestor? = some parent) : parent ∈ parentsOf found id := by
  obtain ⟨⟨own, parents⟩, hsteps, hpure⟩ := Outcome.bind_ok_iff.mp h
  cases hpure
  obtain ⟨hown, hparents, hnamed⟩ := ancestors_upto (Nat.le_refl _) hsteps
  rw [parentsOf_zip (hown.trans hparents.symm)]
  rw [List.getD_eq_getElem?_getD, List.getElem?_map] at hancestor
  cases hpair : (own.zip parents)[id]? with
  | none =>
      rw [hpair] at hancestor
      cases hancestor
  | some pair =>
      rw [hpair] at hancestor
      exact hnamed id pair.1 (List.getElem?_zip_eq_some.mp hpair).1 parent hancestor

end

end Hierarchy

end GraphQuery
