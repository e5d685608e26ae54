import GraphQuery.Plan.Eval
import GraphQuery.Proofs.Outcome

/-! The scope of names in plans. Two nodes have to do with names, the variable and the binding of one; all
others hand the variables around them on to their parts, whatever rows they evaluate these on. So the value
of a plan depends on the variables only that are free in it, and a plan into which something is put for a
hole comes to the same with a variable there as with the value of that variable, as long as no node of its
own bears the name. What depends on nothing but the row may be put there for its value on the row around the
plan, as long as no node evaluates the hole on rows of its own. -/

namespace GraphQuery

namespace Outcome

variable {ε α β : Type} {error : ε}

/-- An outcome other than some failure. -/
def Avoids (error : ε) (outcome : Except ε α) : Prop :=
  outcome ≠ .error error

theorem Avoids.ok (result : α) : Avoids error (.ok result) :=
  nofun

theorem Avoids.bind {first : Except ε α} {next : α → Except ε β} (hfirst : Avoids error first)
    (hnext : ∀ result, Avoids error (next result)) : Avoids error (first >>= next) := by
  intro h
  rcases bind_error_iff.mp h with h | ⟨result, _, h⟩
  · exact hfirst h
  · exact hnext result h

theorem Avoids.map {first : Except ε α} (h : Avoids error first) (change : α → β) :
    Avoids error (first.map change) :=
  fun herror => h (map_error_iff.mp herror)

theorem Avoids.mapM {step : α → Except ε β} (hstep : ∀ item, Avoids error (step item)) (items : List α) :
    Avoids error (items.mapM step) := by
  intro h
  obtain ⟨item, _, h⟩ := error_of_mapM h
  exact hstep item h

end Outcome

open Outcome (Avoids)

namespace Plan

/-- Is this node neither a variable nor the binding of one? -/
def operates : Plan → Bool
  | .var _ => false
  | .bind _ _ _ => false
  | _ => true

/-- Is this node a variable of a name, or does it bind one? -/
def bears (name : String) : Plan → Bool
  | .var other => other == name
  | .bind other _ _ => other == name
  | _ => false

/-- A node with other parts. -/
def mapParts (change : Plan → Plan) : Plan → Plan
  | .bind name value body => .bind name (change value) (change body)
  | .member target name => .member (change target) name
  | .compare comparison left right => .compare comparison (change left) (change right)
  | .and terms => .and (terms.map change)
  | .or terms => .or (terms.map change)
  | .not operand => .not (change operand)
  | .isNull operand => .isNull (change operand)
  | .typeIs target shapes => .typeIs (change target) shapes
  | .cast target typeName shapes => .cast (change target) typeName shapes
  | .cond test yes no => .cond (change test) (change yes) (change no)
  | .nullGuard value body typeName => .nullGuard (change value) (change body) typeName
  | .record shape bindings => .record shape (bindings.map fun binding => (binding.1, change binding.2))
  | .filter source predicate => .filter (change source) (change predicate)
  | .project source body => .project (change source) (change body)
  | .orderBy source key descending => .orderBy (change source) (change key) descending
  | .skip source count => .skip (change source) count
  | .take source count => .take (change source) count
  | .toList source => .toList (change source)
  | .first source => .first (change source)
  | .firstOrDefault source => .firstOrDefault (change source)
  | leaf => leaf

/-- The parts of a node that are evaluated on the row of the node. -/
def heads : Plan → List Plan
  | .nullGuard value _ _ => [value]
  | .filter source _ => [source]
  | .project source _ => [source]
  | .orderBy source _ _ => [source]
  | plan => plan.children

/-- The parts of a node that are evaluated on rows which the node itself binds. -/
def bodies : Plan → List Plan
  | .nullGuard _ body _ => [body]
  | .filter _ predicate => [predicate]
  | .project _ body => [body]
  | .orderBy _ key _ => [key]
  | _ => []

/-- Does a name stand in a part of this node that is evaluated on other rows? -/
def covers (name : String) (plan : Plan) : Bool :=
  plan.bodies.any fun body => body.any (bears name)

mutual

/-- A plan with another one in place of a variable that stands for a hole. -/
def fill (hole : String) (filling : Plan) : Plan → Plan
  | .var name => if name = hole then filling else .var name
  | .bind name value body => .bind name (fill hole filling value) (fill hole filling body)
  | .member target name => .member (fill hole filling target) name
  | .compare comparison left right =>
    .compare comparison (fill hole filling left) (fill hole filling right)
  | .and terms => .and (fillTerms hole filling terms)
  | .or terms => .or (fillTerms hole filling terms)
  | .not operand => .not (fill hole filling operand)
  | .isNull operand => .isNull (fill hole filling operand)
  | .typeIs target shapes => .typeIs (fill hole filling target) shapes
  | .cast target typeName shapes => .cast (fill hole filling target) typeName shapes
  | .cond test yes no => .cond (fill hole filling test) (fill hole filling yes) (fill hole filling no)
  | .nullGuard value body typeName =>
    .nullGuard (fill hole filling value) (fill hole filling body) typeName
  | .record shape bindings => .record shape (fillBindings hole filling bindings)
  | .filter source predicate => .filter (fill hole filling source) (fill hole filling predicate)
  | .project source body => .project (fill hole filling source) (fill hole filling body)
  | .orderBy source key descending =>
    .orderBy (fill hole filling source) (fill hole filling key) descending
  | .skip source count => .skip (fill hole filling source) count
  | .take source count => .take (fill hole filling source) count
  | .toList source => .toList (fill hole filling source)
  | .first source => .first (fill hole filling source)
  | .firstOrDefault source => .firstOrDefault (fill hole filling source)
  | leaf => leaf

/-- Plans with another one in place of a hole. -/
def fillTerms (hole : String) (filling : Plan) : List Plan → List Plan
  | [] => []
  | term :: rest => fill hole filling term :: fillTerms hole filling rest

/-- The bindings of a record with another plan in place of a hole. -/
def fillBindings (hole : String) (filling : Plan) : List (String × Plan) → List (String × Plan)
  | [] => []
  | (key, binding) :: rest => (key, fill hole filling binding) :: fillBindings hole filling rest

end

/-- A name is free in a plan: a variable of that name stands where nothing binds it. -/
inductive Free (name : String) : Plan → Prop where
  | var : Free name (.var name)
  | value {bound : String} {value body : Plan} : Free name value → Free name (.bind bound value body)
  | body {bound : String} {value body : Plan} (other : name ≠ bound) :
      Free name body → Free name (.bind bound value body)
  | part {plan child : Plan} (operates : plan.operates = true) (mem : child ∈ plan.children) :
      Free name child → Free name plan

/-! ### Nodes and their parts -/

theorem sizeOf_lt_of_mem_children {plan child : Plan} (h : child ∈ plan.children) :
    sizeOf child < sizeOf plan := by
  cases plan with
  | and terms =>
      have hlt : sizeOf child < sizeOf terms := List.sizeOf_lt_of_mem h
      simp only [and.sizeOf_spec]
      omega
  | or terms =>
      have hlt : sizeOf child < sizeOf terms := List.sizeOf_lt_of_mem h
      simp only [or.sizeOf_spec]
      omega
  | record shape bindings =>
      obtain ⟨⟨key, binding⟩, hmem, rfl⟩ := List.mem_map.mp h
      have hlt := List.sizeOf_lt_of_mem hmem
      simp only [Prod.mk.sizeOf_spec] at hlt
      simp only [record.sizeOf_spec]
      omega
  | _ => grind [children]

/-- What holds of variables, of bindings, and of a node when it holds of its parts, holds of every plan. -/
@[elab_as_elim]
theorem scope_induction {motive : Plan → Prop} (var : ∀ name, motive (.var name))
    (bind : ∀ name value body, motive value → motive body → motive (.bind name value body))
    (node : ∀ plan, plan.operates = true → (∀ child ∈ plan.children, motive child) → motive plan)
    (plan : Plan) : motive plan := by
  have hparts : ∀ child ∈ plan.children, motive child := fun child _ => scope_induction var bind node child
  cases plan with
  | var name => exact var name
  | bind name value body =>
      exact bind name value body (hparts value List.mem_cons_self)
        (hparts body (List.mem_cons_of_mem _ List.mem_cons_self))
  | _ => exact node _ rfl hparts
termination_by sizeOf plan
decreasing_by exact sizeOf_lt_of_mem_children ‹_›

theorem mapParts_id (plan : Plan) : plan.mapParts id = plan := by
  cases plan <;> simp [mapParts]

/-- A node keeps its parts where each of them is kept. -/
theorem mapParts_self {change : Plan → Plan} {plan : Plan} (h : ∀ child ∈ plan.children, change child = child) :
    plan.mapParts change = plan := by
  cases plan with
  | and terms =>
      rw [mapParts, List.map_congr_left (show ∀ term ∈ terms, change term = id term from h), List.map_id]
  | or terms =>
      rw [mapParts, List.map_congr_left (show ∀ term ∈ terms, change term = id term from h), List.map_id]
  | record shape bindings =>
      have hbindings : ∀ binding ∈ bindings, (binding.1, change binding.2) = id binding := by
        intro binding hmem
        rw [h binding.2 (List.mem_map_of_mem hmem)]
        rfl
      rw [mapParts, List.map_congr_left hbindings, List.map_id]
  | _ =>
      simp only [children, List.forall_mem_cons] at h
      simp only [mapParts, h]

theorem mem_children_of_heads {plan part : Plan} (h : part ∈ plan.heads) : part ∈ plan.children := by
  cases plan with
  | nullGuard _ _ _ | filter _ _ | project _ _ | orderBy _ _ _ =>
      rw [List.mem_singleton.mp h]
      exact List.mem_cons_self
  | _ => exact h

theorem mem_children_of_bodies {plan part : Plan} (h : part ∈ plan.bodies) : part ∈ plan.children := by
  cases plan with
  | nullGuard _ _ _ | filter _ _ | project _ _ | orderBy _ _ _ =>
      rw [List.mem_singleton.mp h]
      exact List.mem_cons_of_mem _ List.mem_cons_self
  | _ => cases h

theorem children_mapParts (change : Plan → Plan) (plan : Plan) :
    (plan.mapParts change).children = plan.children.map change := by
  cases plan <;> simp [mapParts, children, Function.comp_def]

theorem operates_mapParts (change : Plan → Plan) (plan : Plan) :
    (plan.mapParts change).operates = plan.operates := by
  cases plan <;> rfl

theorem fillTerms_eq_map (hole : String) (filling : Plan) (terms : List Plan) :
    fillTerms hole filling terms = terms.map (fill hole filling) := by
  induction terms with
  | nil => rfl
  | cons term rest ih => rw [fillTerms, ih, List.map_cons]

theorem fillBindings_eq_map (hole : String) (filling : Plan) (bindings : List (String × Plan)) :
    fillBindings hole filling bindings =
      bindings.map fun binding => (binding.1, fill hole filling binding.2) := by
  induction bindings with
  | nil => rfl
  | cons binding rest ih => rw [fillBindings, ih, List.map_cons]

theorem fill_node {hole : String} {filling plan : Plan} (h : plan.operates = true) :
    fill hole filling plan = plan.mapParts (fill hole filling) := by
  cases plan with
  | var _ => cases h
  | and terms => rw [fill, fillTerms_eq_map, mapParts]
  | or terms => rw [fill, fillTerms_eq_map, mapParts]
  | record shape bindings => rw [fill, fillBindings_eq_map, mapParts]
  | _ => rfl

/-- What is put for a hole decides nothing else about whether a plan yields a sequence. -/
theorem isSequence_fill {first second : Plan} (h : first.isSequence = second.isSequence) (hole : String)
    (template : Plan) : (fill hole first template).isSequence = (fill hole second template).isSequence := by
  cases template with
  | var name =>
      unfold fill
      split
      · exact h
      · rfl
  | _ => rfl

theorem anyTerm_eq (test : Plan → Bool) (terms : List Plan) : anyTerm test terms = terms.any (any test) := by
  induction terms with
  | nil => rfl
  | cons term rest ih => rw [anyTerm, ih, List.any_cons]

theorem anyBinding_eq (test : Plan → Bool) (bindings : List (String × Plan)) :
    anyBinding test bindings = (bindings.map Prod.snd).any (any test) := by
  induction bindings with
  | nil => rfl
  | cons binding rest ih => rw [anyBinding, ih, List.map_cons, List.any_cons]

/-- A search looks at a node and then through its parts. -/
theorem any_eq (test : Plan → Bool) (plan : Plan) :
    plan.any test = (test plan || plan.children.any (any test)) := by
  cases plan <;> simp [any, children, anyTerm_eq, anyBinding_eq, Bool.or_assoc]

/-- What some node of a part satisfies, some node of the plan does. -/
theorem any_of_child {test : Plan → Bool} {plan child : Plan} (hmem : child ∈ plan.children)
    (h : child.any test = true) : plan.any test = true := by
  rw [any_eq, List.any_eq_true.mpr ⟨child, hmem, h⟩, Bool.or_true]

theorem any_of_self {test : Plan → Bool} {plan : Plan} (h : test plan = true) : plan.any test = true := by
  rw [any_eq, h, Bool.true_or]

/-- Filling a hole changes nothing where there is none. -/
theorem fill_eq_self {hole : String} {filling plan : Plan} (h : plan.any (bears hole) = false) :
    fill hole filling plan = plan := by
  induction plan using scope_induction with
  | var name =>
      have hother : name ≠ hole := beq_eq_false_iff_ne.mp h
      rw [fill, if_neg hother]
  | bind name value body ihvalue ihbody =>
      simp only [any, Bool.or_eq_false_iff] at h
      obtain ⟨⟨_, hvalue⟩, hbody⟩ := h
      rw [fill, ihvalue hvalue, ihbody hbody]
  | node plan hoperates ih =>
      rw [fill_node hoperates]
      refine mapParts_self fun child hmem => ih child hmem (Bool.eq_false_iff.mpr fun hchild => ?_)
      rw [any_of_child hmem hchild] at h
      cases h

/-! ### Free names -/

theorem free_node_iff {name : String} {plan : Plan} (h : plan.operates = true) :
    Free name plan ↔ ∃ child ∈ plan.children, Free name child := by
  constructor
  · intro hfree
    cases hfree with
    | part _ hmem hchild => exact ⟨_, hmem, hchild⟩
    | _ => cases h
  · rintro ⟨child, hmem, hchild⟩
    exact .part h hmem hchild

section

variable {name : String} {plan first second : Plan}

theorem not_free_leaf (h : plan.operates = true) (hnone : plan.children = []) : ¬ Free name plan := by
  rw [free_node_iff h, hnone]
  exact fun ⟨_, hmem, _⟩ => absurd hmem List.not_mem_nil

theorem free_single (h : plan.operates = true) (hparts : plan.children = [first]) :
    Free name plan ↔ Free name first := by
  rw [free_node_iff h, hparts]
  simp only [List.mem_singleton, exists_eq_left]

theorem free_pair (h : plan.operates = true) (hparts : plan.children = [first, second]) :
    Free name plan ↔ Free name first ∨ Free name second := by
  rw [free_node_iff h, hparts]
  simp only [List.mem_cons, List.not_mem_nil, or_false, exists_eq_or_imp, exists_eq_left]

end

theorem free_bind_iff {name bound : String} {value body : Plan} :
    Free name (.bind bound value body) ↔ Free name value ∨ name ≠ bound ∧ Free name body := by
  constructor
  · intro hfree
    cases hfree with
    | value hvalue => exact Or.inl hvalue
    | body hother hbody => exact Or.inr ⟨hother, hbody⟩
    | part hoperates _ _ => cases hoperates
  · rintro (hvalue | ⟨hother, hbody⟩)
    · exact .value hvalue
    · exact .body hother hbody

theorem free_var_iff {name other : String} : Free name (.var other) ↔ name = other := by
  constructor
  · intro hfree
    cases hfree with
    | var => rfl
    | part hoperates _ _ => cases hoperates
  · rintro rfl
    exact .var

theorem any_bears_of_free {name : String} {plan : Plan} (h : Free name plan) : plan.any (bears name) = true := by
  induction h with
  | var => exact any_of_self (beq_self_eq_true name)
  | value _ ih => exact any_of_child List.mem_cons_self ih
  | body _ _ ih => exact any_of_child (List.mem_cons_of_mem _ List.mem_cons_self) ih
  | part _ hmem _ ih => exact any_of_child hmem ih

/-- A name that is free where a hole was filled is the name of some node around it, or free in what was put
there. -/
theorem free_of_fill {name hole : String} {filling template : Plan} (h : Free name (fill hole filling template)) :
    template.any (bears name) = true ∨ Free name filling := by
  induction template using scope_induction with
  | var other =>
      unfold fill at h
      split at h
      · exact Or.inr h
      · have hsame := free_var_iff.mp h
        exact Or.inl (beq_iff_eq.mpr hsame.symm)
  | bind bound value body ihvalue ihbody =>
      have hparts {part : Plan} (hmem : part ∈ (Plan.bind bound value body).children)
          (hpart : part.any (bears name) = true ∨ Free name filling) :
          (Plan.bind bound value body).any (bears name) = true ∨ Free name filling :=
        hpart.imp_left (any_of_child hmem)
      rcases free_bind_iff.mp h with hvalue | ⟨_, hbody⟩
      · exact hparts List.mem_cons_self (ihvalue hvalue)
      · exact hparts (List.mem_cons_of_mem _ List.mem_cons_self) (ihbody hbody)
  | node plan hoperates ih =>
      rw [fill_node hoperates, free_node_iff (by rwa [operates_mapParts]), children_mapParts] at h
      obtain ⟨_, hmem, hfree⟩ := h
      obtain ⟨child, hchild, rfl⟩ := List.mem_map.mp hmem
      exact (ih child hchild hfree).imp_left (any_of_child hchild)

/-! ### Evaluation -/

section

variable {source : Source} {vars others : List (String × Value)} {first second : Plan → Plan}

theorem evalAll_map {terms : List Plan} (row : Value)
    (h : ∀ term ∈ terms, (first term).evalIn source vars row = (second term).evalIn source others row) :
    evalAll source vars row (terms.map first) = evalAll source others row (terms.map second) := by
  induction terms with
  | nil => rfl
  | cons term rest ih =>
      obtain ⟨hterm, hrest⟩ := List.forall_mem_cons.mp h
      rw [List.map_cons, List.map_cons, evalAll, evalAll, hterm, ih hrest]

theorem evalAny_map {terms : List Plan} (row : Value)
    (h : ∀ term ∈ terms, (first term).evalIn source vars row = (second term).evalIn source others row) :
    evalAny source vars row (terms.map first) = evalAny source others row (terms.map second) := by
  induction terms with
  | nil => rfl
  | cons term rest ih =>
      obtain ⟨hterm, hrest⟩ := List.forall_mem_cons.mp h
      rw [List.map_cons, List.map_cons, evalAny, evalAny, hterm, ih hrest]

theorem evalBindings_map {bindings : List (String × Plan)} (row : Value)
    (h : ∀ term ∈ bindings.map Prod.snd,
      (first term).evalIn source vars row = (second term).evalIn source others row) :
    evalBindings source vars row (bindings.map fun binding => (binding.1, first binding.2)) =
      evalBindings source others row (bindings.map fun binding => (binding.1, second binding.2)) := by
  induction bindings with
  | nil => rfl
  | cons binding rest ih =>
      obtain ⟨hterm, hrest⟩ := List.forall_mem_cons.mp h
      rw [List.map_cons, List.map_cons, evalBindings, evalBindings, hterm, ih hrest]

/-- A node that neither is a variable nor binds one has the same value on a row with parts that have the same
values, each part among its own variables: the parts evaluated on the row itself need to have them there only. -/
theorem evalIn_mapParts_on {plan : Plan} (hoperates : plan.operates = true) {row : Value}
    (hheads : ∀ part ∈ plan.heads,
      (first part).evalIn source vars row = (second part).evalIn source others row)
    (hbodies : ∀ part ∈ plan.bodies, ∀ item,
      (first part).evalIn source vars item = (second part).evalIn source others item) :
    (plan.mapParts first).evalIn source vars row = (plan.mapParts second).evalIn source others row := by
  cases plan with
  | var _ => cases hoperates
  | bind _ _ _ => cases hoperates
  | and terms =>
      have hterms := @evalAll_map source vars others first second terms row hheads
      rw [mapParts, mapParts, evalIn, evalIn, hterms]
  | or terms =>
      have hterms := @evalAny_map source vars others first second terms row hheads
      rw [mapParts, mapParts, evalIn, evalIn, hterms]
  | record shape bindings => rw [mapParts, mapParts, evalIn, evalIn, evalBindings_map row hheads]
  | _ =>
      simp only [heads, bodies, children, List.forall_mem_cons] at hheads hbodies
      simp only [mapParts, evalIn, hheads, hbodies]

/-- So it is on every row with parts that have the same values on every row. -/
theorem evalIn_mapParts {plan : Plan} (hoperates : plan.operates = true)
    (h : ∀ child ∈ plan.children, ∀ row,
      (first child).evalIn source vars row = (second child).evalIn source others row) (row : Value) :
    (plan.mapParts first).evalIn source vars row = (plan.mapParts second).evalIn source others row :=
  evalIn_mapParts_on hoperates (fun part hmem => h part (mem_children_of_heads hmem) row)
    fun part hmem => h part (mem_children_of_bodies hmem)

end

variable {source : Source}

/-- The value of a plan depends on no variables but those that are free in it. -/
theorem evalIn_congr_free {plan : Plan} : ∀ {vars others : List (String × Value)},
    (∀ name, Free name plan → vars.lookup name = others.lookup name) →
      ∀ row, plan.evalIn source vars row = plan.evalIn source others row := by
  induction plan using scope_induction with
  | var name =>
      intro vars others h row
      rw [evalIn, evalIn, h name .var]
  | bind bound value body ihvalue ihbody =>
      intro vars others h row
      rw [evalIn, evalIn, ihvalue fun name hfree => h name (.value hfree)]
      refine congrArg (_ >>= ·) (funext fun found => ihbody (fun name hfree => ?_) row)
      rw [List.lookup_cons, List.lookup_cons]
      by_cases hbound : name = bound
      · rw [beq_iff_eq.mpr hbound]
      · rw [beq_eq_false_iff_ne.mpr hbound]
        exact h name (.body hbound hfree)
  | node plan hoperates ih =>
      intro vars others h row
      rw [← mapParts_id plan]
      refine evalIn_mapParts hoperates (fun child hmem row => ?_) row
      exact ih child hmem (fun name hfree => h name (.part hoperates hmem hfree)) row

/-- A variable that is not free in a plan makes no difference to it. -/
theorem evalIn_cons {plan : Plan} {name : String} (h : ¬ Free name plan) (value : Value)
    (vars : List (String × Value)) (row : Value) :
    plan.evalIn source ((name, value) :: vars) row = plan.evalIn source vars row := by
  refine evalIn_congr_free (fun other hfree => ?_) row
  have hother : other ≠ name := by
    rintro rfl
    exact h hfree
  rw [List.lookup_cons, beq_eq_false_iff_ne.mpr hother]

/-- A variable around a plan may stand in a hole for its value, where no node of the plan bears its name. -/
theorem evalIn_fill_var {name hole : String} {value : Value} {template : Plan} :
    template.any (bears name) = false → ∀ {vars : List (String × Value)}, vars.lookup name = some value →
      ∀ row, (fill hole (.var name) template).evalIn source vars row =
        (fill hole (.const value) template).evalIn source vars row := by
  induction template using scope_induction with
  | var other =>
      intro _ vars hlookup row
      unfold fill
      split
      · rw [evalIn, evalIn, hlookup]
      · rfl
  | bind bound found body ihvalue ihbody =>
      intro hnone vars hlookup row
      simp only [any, Bool.or_eq_false_iff] at hnone
      obtain ⟨⟨hbound, hfound⟩, hbody⟩ := hnone
      rw [fill, fill, evalIn, evalIn, ihvalue hfound hlookup]
      refine congrArg (_ >>= ·) (funext fun inner => ihbody hbody ?_ row)
      -- the binding does not bear the name, so that it does not hide the variable from the body
      have hother : (name == bound) = false :=
        beq_eq_false_iff_ne.mpr fun hsame => beq_eq_false_iff_ne.mp hbound hsame.symm
      rw [List.lookup_cons, hother]
      exact hlookup
  | node plan hoperates ih =>
      intro hnone vars hlookup row
      rw [fill_node hoperates, fill_node hoperates]
      refine evalIn_mapParts hoperates (fun child hmem row => ih child hmem ?_ hlookup row) row
      refine Bool.eq_false_iff.mpr fun hchild => ?_
      rw [any_of_child hmem hchild] at hnone
      cases hnone

/-- A plan that depends on nothing but the row may stand in a hole for its value on the row, where no node
puts the hole into the scope of other rows. -/
theorem evalIn_fill_row {hole : String} {filling template : Plan} {value : Value → Value}
    (hfilling : ∀ vars row, filling.evalIn source vars row = .ok (value row)) :
    template.any (covers hole) = false → ∀ (vars : List (String × Value)) (row : Value),
      (fill hole filling template).evalIn source vars row =
        (fill hole (.const (value row)) template).evalIn source vars row := by
  induction template using scope_induction with
  | var other =>
      intro _ vars row
      unfold fill
      split
      · rw [hfilling, evalIn]
      · rfl
  | bind bound found body ihvalue ihbody =>
      intro hnone vars row
      simp only [any, Bool.or_eq_false_iff] at hnone
      obtain ⟨⟨_, hvalue⟩, hbody⟩ := hnone
      rw [fill, fill, evalIn, evalIn, ihvalue hvalue]
      exact congrArg (_ >>= ·) (funext fun inner => ihbody hbody _ row)
  | node plan hoperates ih =>
      intro hnone vars row
      have hparts : ∀ child ∈ plan.children, child.any (covers hole) = false := by
        intro child hmem
        refine Bool.eq_false_iff.mpr fun hchild => ?_
        rw [any_of_child hmem hchild] at hnone
        cases hnone
      rw [fill_node hoperates, fill_node hoperates]
      apply evalIn_mapParts_on hoperates
      · intro part hmem
        exact ih part (mem_children_of_heads hmem) (hparts part (mem_children_of_heads hmem)) vars row
      · intro part hmem item
        -- the hole is in no part that is evaluated on other rows, so that these parts are the same
        have hbody : part.any (bears hole) = false := by
          refine Bool.eq_false_iff.mpr fun hbears => ?_
          have hcovers : covers hole plan = true := List.any_eq_true.mpr ⟨part, hmem, hbears⟩
          rw [any_of_self hcovers] at hnone
          cases hnone
        rw [fill_eq_self hbody, fill_eq_self hbody]

/-! ### Failures -/

section

variable {error : StoreError} {vars : List (String × Value)}

theorem keepWhere_avoids {test : Value → Except StoreError Bool}
    (htest : ∀ item, Avoids error (test item)) (items : List Value) :
    Avoids error (keepWhere test items) := by
  induction items with
  | nil => exact .ok _
  | cons item rest ih => exact (htest item).bind fun _ => ih.bind fun _ => .ok _

theorem withKeys_avoids {key : Value → Except StoreError Value}
    (hkey : ∀ item, Avoids error (key item)) (items : List Value) :
    Avoids error (withKeys key items) := by
  induction items with
  | nil => exact .ok _
  | cons item rest ih => exact (hkey item).bind fun _ => ih.bind fun _ => .ok _

theorem evalAll_avoids {terms : List Plan} {row : Value}
    (h : ∀ term ∈ terms, Avoids error (term.evalIn source vars row)) :
    Avoids error (evalAll source vars row terms) := by
  induction terms with
  | nil => exact .ok _
  | cons term rest ih =>
      obtain ⟨hterm, hrest⟩ := List.forall_mem_cons.mp h
      refine hterm.bind fun value => ?_
      split
      · exact ih hrest
      · exact .ok _

theorem evalAny_avoids {terms : List Plan} {row : Value}
    (h : ∀ term ∈ terms, Avoids error (term.evalIn source vars row)) :
    Avoids error (evalAny source vars row terms) := by
  induction terms with
  | nil => exact .ok _
  | cons term rest ih =>
      obtain ⟨hterm, hrest⟩ := List.forall_mem_cons.mp h
      refine hterm.bind fun value => ?_
      split
      · exact .ok _
      · exact ih hrest

theorem evalBindings_avoids {bindings : List (String × Plan)} {row : Value}
    (h : ∀ term ∈ bindings.map Prod.snd, Avoids error (term.evalIn source vars row)) :
    Avoids error (evalBindings source vars row bindings) := by
  induction bindings with
  | nil => exact .ok _
  | cons binding rest ih =>
      obtain ⟨hterm, hrest⟩ := List.forall_mem_cons.mp h
      exact hterm.bind fun _ => (ih hrest).bind fun _ => .ok _

variable (hsequence : ∀ operation found, error ≠ .notASequence operation found)

include hsequence

theorem sequence_avoids (operation : String) (value : Value) : Avoids error (value.sequence operation) := by
  cases value with
  | null | array _ => exact .ok _
  | bool _ | number _ | string _ | object _ =>
      exact fun h => hsequence operation _ (Except.error.inj h).symm

theorem mapSequence_avoids {operation : String} {step : List Value → Except StoreError (List Value)}
    (hstep : ∀ items, Avoids error (step items)) (value : Value) :
    Avoids error (value.mapSequence operation step) := by
  refine (sequence_avoids hsequence operation value).bind fun items? => ?_
  cases items? with
  | none => exact .ok _
  | some items => exact (hstep items).map _

variable (hsource : ∀ collection, Avoids error (source.collection collection))

include hsource

/-- A node that is no variable fails, other than for want of a sequence, only where a part of it does. -/
theorem evalIn_node_avoids {plan : Plan} (hoperates : plan.operates = true)
    (h : ∀ child ∈ plan.children, ∀ row, Avoids error (child.evalIn source vars row))
    (row : Value) : Avoids error (plan.evalIn source vars row) := by
  cases plan with
  | var _ => cases hoperates
  | bind _ _ _ => cases hoperates
  | collection collection => exact (hsource collection).map _
  | and terms => exact (evalAll_avoids fun term hmem => h term hmem row).map _
  | or terms => exact (evalAny_avoids fun term hmem => h term hmem row).map _
  | record shape bindings => exact (evalBindings_avoids fun term hmem => h term hmem row).map _
  | context | row | const _ | null _ => exact .ok _
  | member target _ | not target | isNull target | typeIs target _ | cast target _ _ =>
      exact (h target List.mem_cons_self row).bind fun _ => .ok _
  | compare _ left right =>
      have hright := h right (List.mem_cons_of_mem _ List.mem_cons_self) row
      exact (h left List.mem_cons_self row).bind fun _ => hright.bind fun _ => .ok _
  | cond test yes no =>
      refine (h test List.mem_cons_self row).bind fun value => ?_
      split
      · exact h yes (List.mem_cons_of_mem _ List.mem_cons_self) row
      · exact h no (List.mem_cons_of_mem _ (List.mem_cons_of_mem _ List.mem_cons_self)) row
  | nullGuard value body _ =>
      refine (h value List.mem_cons_self row).bind fun found => ?_
      split
      · exact .ok _
      · exact h body (List.mem_cons_of_mem _ List.mem_cons_self) found
  | filter items predicate =>
      have hpredicate := h predicate (List.mem_cons_of_mem _ List.mem_cons_self)
      refine (h items List.mem_cons_self row).bind fun value => mapSequence_avoids hsequence ?_ value
      exact keepWhere_avoids fun item => (hpredicate item).map _
  | project items body =>
      have hbody := h body (List.mem_cons_of_mem _ List.mem_cons_self)
      exact (h items List.mem_cons_self row).bind fun value => mapSequence_avoids hsequence (Avoids.mapM hbody) value
  | orderBy items key _ =>
      have hkey := h key (List.mem_cons_of_mem _ List.mem_cons_self)
      refine (h items List.mem_cons_self row).bind fun value => mapSequence_avoids hsequence (fun items => ?_) value
      exact (withKeys_avoids hkey items).bind fun _ => .ok _
  | skip items _ | take items _ | toList items =>
      exact (h items List.mem_cons_self row).bind fun value => mapSequence_avoids hsequence (fun _ => .ok _) value
  | first items | firstOrDefault items =>
      refine (h items List.mem_cons_self row).bind fun value => ?_
      exact (sequence_avoids hsequence "first" value).bind fun _ => .ok _

/-- A plan never fails for a variable that has a value wherever it is free, nor in any way in which neither
collections nor sequences fail. -/
theorem evalIn_avoids {plan : Plan} : ∀ {vars : List (String × Value)},
    (∀ name, error = .unboundVariable name → Free name plan → (vars.lookup name).isSome = true) →
      ∀ row, Avoids error (plan.evalIn source vars row) := by
  induction plan using scope_induction with
  | var other =>
      intro vars hknown row
      rw [evalIn]
      split
      · exact .ok _
      · next hnone =>
          intro h
          have hsome := hknown other (Except.error.inj h).symm .var
          rw [hnone] at hsome
          cases hsome
  | bind bound value body ihvalue ihbody =>
      intro vars hknown row
      refine (ihvalue (fun name hname hfree => hknown name hname (.value hfree)) row).bind fun found => ?_
      refine ihbody (fun name hname hfree => ?_) row
      rw [List.lookup_cons]
      by_cases hbound : name = bound
      · rw [beq_iff_eq.mpr hbound]
        rfl
      · rw [beq_eq_false_iff_ne.mpr hbound]
        exact hknown name hname (.body hbound hfree)
  | node plan hoperates ih =>
      intro vars hknown row
      refine evalIn_node_avoids hsequence hsource hoperates (fun child hmem row => ?_) row
      exact ih child hmem (fun name hname hfree => hknown name hname (.part hoperates hmem hfree)) row

end

end Plan

end GraphQuery
