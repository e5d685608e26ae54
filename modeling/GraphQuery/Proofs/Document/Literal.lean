import GraphQuery.Document.Literal
import GraphQuery.Proofs.Outcome

/-! The variables of a literal. A literal has a value when all of its variables have one, and the value
depends on nothing else. Putting literals in for variables keeps the value of a literal as long as
each variable has the value of what is put in for it. -/

namespace GraphQuery.Literal

variable {vars vars' : Members}

/-- The literals right inside a literal. -/
def inside : Literal → List Literal
  | .list items => items
  | .object members => members.map Prod.snd
  | _ => []

/-- What holds of a literal when it holds of all literals right inside it holds of every literal. -/
@[elab_as_elim]
theorem tree_induction {motive : Literal → Prop}
    (step : ∀ literal, (∀ item ∈ literal.inside, motive item) → motive literal) (literal : Literal) :
    motive literal :=
  step literal fun item _ => tree_induction step item
termination_by sizeOf literal
decreasing_by
  next hmem =>
    cases literal with
    | list items =>
        have hitem := List.sizeOf_lt_of_mem hmem
        simp only [inside, list.sizeOf_spec] at hitem ⊢
        omega
    | object members =>
        obtain ⟨member, hmember, rfl⟩ := List.mem_map.mp hmem
        have hmember := List.sizeOf_lt_of_mem hmember
        obtain ⟨key, item⟩ := member
        simp only [Prod.mk.sizeOf_spec, object.sizeOf_spec] at hmember ⊢
        omega
    | _ => cases hmem

/-! ### Variables -/

mutual

/-- The names of the variables that a literal uses, in any place. -/
def used : Literal → List String
  | .list items => usedByItems items
  | .object members => usedByMembers members
  | .variable name => [name]
  | _ => []

/-- The names of the variables of list items. -/
def usedByItems : List Literal → List String
  | [] => []
  | item :: rest => used item ++ usedByItems rest

/-- The names of the variables of object members. -/
def usedByMembers : List (String × Literal) → List String
  | [] => []
  | (_, item) :: rest => used item ++ usedByMembers rest

end

theorem used_list (items : List Literal) : (list items).used = items.flatMap used := by
  rw [used]
  induction items with
  | nil => rfl
  | cons item rest ih => rw [usedByItems, ih, List.flatMap_cons]

theorem used_object (members : List (String × Literal)) :
    (object members).used = members.flatMap fun member => member.2.used := by
  rw [used]
  induction members with
  | nil => rfl
  | cons member rest ih => rw [usedByMembers, ih, List.flatMap_cons]

/-! ### Values -/

theorem evaluate_list (vars : Members) (items : List Literal) :
    (list items).evaluate vars = (items.mapM (evaluate vars)).map .array := by
  rw [evaluate]
  congr 1
  induction items with
  | nil => rfl
  | cons item rest ih => rw [evaluateItems, ih, List.mapM_cons]

/-- The entry that an object has for a member of a literal. -/
def entry (vars : Members) (member : String × Literal) : Except String (String × Value) :=
  (member.2.evaluate vars).map (Prod.mk member.1)

theorem evaluate_object (vars : Members) (members : List (String × Literal)) :
    (object members).evaluate vars = (members.mapM (entry vars)).map .ofEntries := by
  rw [evaluate]
  congr 1
  induction members with
  | nil => rfl
  | cons member rest ih =>
      obtain ⟨key, item⟩ := member
      rw [evaluateMembers, ih, List.mapM_cons, entry]
      cases item.evaluate vars <;> rfl

/-- A literal has a value when its variables have. -/
theorem exists_evaluate (literal : Literal) (h : ∀ var ∈ literal.used, (vars.get? var).isSome = true) :
    ∃ value, literal.evaluate vars = .ok value := by
  induction literal using tree_induction with
  | step literal ih =>
      cases literal with
      | list items =>
          rw [used_list] at h
          have hitems : ∀ item ∈ items, ∃ value, item.evaluate vars = .ok value := fun item hmem =>
            ih item hmem fun var hvar => h var (List.mem_flatMap.mpr ⟨item, hmem, hvar⟩)
          obtain ⟨values, hvalues⟩ := Outcome.exists_mapM hitems
          exact ⟨.array values, by rw [evaluate_list, hvalues]; rfl⟩
      | object members =>
          rw [used_object] at h
          have hmembers : ∀ member ∈ members, ∃ result, entry vars member = .ok result := by
            intro member hmem
            obtain ⟨value, hvalue⟩ := ih member.2 (List.mem_map_of_mem hmem) fun var hvar =>
              h var (List.mem_flatMap.mpr ⟨member, hmem, hvar⟩)
            exact ⟨(member.1, value), by rw [entry, hvalue]; rfl⟩
          obtain ⟨entries, hentries⟩ := Outcome.exists_mapM hmembers
          exact ⟨.ofEntries entries, by rw [evaluate_object, hentries]; rfl⟩
      | «variable» name =>
          obtain ⟨value, hvalue⟩ := Option.isSome_iff_exists.mp (h name (List.mem_singleton_self name))
          exact ⟨value, by rw [evaluate, hvalue]⟩
      | float x? => cases x? <;> exact ⟨_, rfl⟩
      | _ => exact ⟨_, rfl⟩

/-! ### Parts in place of variables -/

mutual

/-- Puts literals in for variables; a variable for which there is none stays. -/
def fill (parts : String → Option Literal) : Literal → Literal
  | .list items => .list (fillItems parts items)
  | .object members => .object (fillMembers parts members)
  | .variable name => (parts name).getD (.variable name)
  | literal => literal

/-- Puts literals in for the variables of list items. -/
def fillItems (parts : String → Option Literal) : List Literal → List Literal
  | [] => []
  | item :: rest => fill parts item :: fillItems parts rest

/-- Puts literals in for the variables of object members. -/
def fillMembers (parts : String → Option Literal) : List (String × Literal) → List (String × Literal)
  | [] => []
  | (key, item) :: rest => (key, fill parts item) :: fillMembers parts rest

end

variable {parts : String → Option Literal}

theorem fill_list (items : List Literal) : (list items).fill parts = .list (items.map (fill parts)) := by
  rw [fill]
  congr 1
  induction items with
  | nil => rfl
  | cons item rest ih => rw [fillItems, ih, List.map_cons]

theorem fill_object (members : List (String × Literal)) :
    (object members).fill parts = .object (members.map fun member => (member.1, member.2.fill parts)) := by
  rw [fill]
  congr 1
  induction members with
  | nil => rfl
  | cons member rest ih => rw [fillMembers, ih, List.map_cons]

/-- A variable that keeps its place is a variable of the literal that parts are put into. -/
theorem mem_used_fill {var : String} (hkept : parts var = none) (literal : Literal)
    (hmem : var ∈ literal.used) : var ∈ (literal.fill parts).used := by
  induction literal using tree_induction with
  | step literal ih =>
      cases literal with
      | list items =>
          rw [used_list] at hmem
          obtain ⟨item, hitem, hvar⟩ := List.mem_flatMap.mp hmem
          rw [fill_list, used_list]
          exact List.mem_flatMap.mpr ⟨_, List.mem_map_of_mem hitem, ih item hitem hvar⟩
      | object members =>
          rw [used_object] at hmem
          obtain ⟨member, hmember, hvar⟩ := List.mem_flatMap.mp hmem
          rw [fill_object, used_object]
          have hfilled := ih member.2 (List.mem_map_of_mem hmember) hvar
          exact List.mem_flatMap.mpr ⟨_, List.mem_map_of_mem hmember, hfilled⟩
      | «variable» name =>
          rw [List.mem_singleton.mp hmem] at hkept ⊢
          rw [fill, hkept]
          exact List.mem_singleton_self name
      | _ => cases hmem

/-- Variables with the values of the parts that are put in for them make the same value as the parts. -/
theorem evaluate_fill (literal : Literal)
    (h : ∀ var ∈ literal.used,
      ((parts var).getD (.variable var)).evaluate vars = (Literal.variable var).evaluate vars') :
    (literal.fill parts).evaluate vars = literal.evaluate vars' := by
  induction literal using tree_induction with
  | step literal ih =>
      cases literal with
      | list items =>
          rw [used_list] at h
          rw [fill_list, evaluate_list, evaluate_list, List.mapM_map]
          congr 1
          exact Outcome.mapM_congr fun item hmem =>
            ih item hmem fun var hvar => h var (List.mem_flatMap.mpr ⟨item, hmem, hvar⟩)
      | object members =>
          rw [used_object] at h
          rw [fill_object, evaluate_object, evaluate_object, List.mapM_map]
          congr 1
          refine Outcome.mapM_congr fun member hmem => congrArg (Except.map (Prod.mk member.1)) ?_
          exact ih member.2 (List.mem_map_of_mem hmem) fun var hvar =>
            h var (List.mem_flatMap.mpr ⟨member, hmem, hvar⟩)
      | «variable» name => exact h name (List.mem_singleton_self name)
      | float x? => cases x? <;> rfl
      | _ => rfl

theorem fill_none (literal : Literal) : literal.fill (fun _ => none) = literal := by
  induction literal using tree_induction with
  | step literal ih =>
      cases literal with
      | list items =>
          have hitems : items.map (fill fun _ => none) = items.map id :=
            List.map_congr_left fun item hmem => ih item hmem
          rw [fill_list, hitems, List.map_id]
      | object members =>
          have hmembers : (members.map fun member => (member.1, member.2.fill fun _ => none)) = members.map id :=
            List.map_congr_left fun member hmem => Prod.ext rfl (ih member.2 (List.mem_map_of_mem hmem))
          rw [fill_object, hmembers, List.map_id]
      | _ => rfl

/-- The value of a literal depends on the values of its variables only. -/
theorem evaluate_congr (literal : Literal) (h : ∀ var ∈ literal.used, vars'.get? var = vars.get? var) :
    literal.evaluate vars' = literal.evaluate vars := by
  have hfill := @evaluate_fill vars' vars (fun _ => none) literal fun var hvar => by
    show (Literal.variable var).evaluate vars' = (Literal.variable var).evaluate vars
    rw [evaluate, evaluate, h var hvar]
  rw [← hfill, fill_none]

end GraphQuery.Literal
