import GraphQuery.Proofs.Query.Level
import GraphQuery.Proofs.Schema.WellFormed
import GraphQuery.Query.Execution

/-! Exact costs. All arithmetic of costs is cut off at the largest bound, at every selection and after every
sibling. What is cut off early stays so in all sums and products, and rows that are counted as none take it
away either way: the cost of a level is what it is in numbers without a limit, cut off once. So it depends
neither on the order of siblings nor on how the costs of fields are written, and more selections never cost
less. -/

namespace GraphQuery

namespace Cost

theorem saturate_mono {m n : Nat} (h : m ≤ n) : saturate m ≤ saturate n := by
  unfold saturate
  omega

theorem saturate_add_right (m n : Nat) : saturate (m + saturate n) = saturate (m + n) := by
  unfold saturate
  omega

theorem saturate_add (m n : Nat) : saturate (saturate m + saturate n) = saturate (m + n) := by
  unfold saturate
  omega

/-- A factor that is cut off makes a product that is cut off, but for the product with nothing. -/
theorem saturate_mul_right (m n : Nat) : saturate (m * saturate n) = saturate (m * n) := by
  unfold saturate
  rcases Nat.le_total n limit with hle | hge
  · rw [Nat.min_eq_right hle]
  · rw [Nat.min_eq_left hge]
    rcases Nat.eq_zero_or_pos m with rfl | hpos
    · rw [Nat.zero_mul, Nat.zero_mul]
    · have hcut : limit ≤ m * limit := Nat.le_mul_of_pos_left limit hpos
      have hmore : m * limit ≤ m * n := Nat.mul_le_mul_left m hge
      omega

/-- One of the two bounds of costs, which arithmetic treats alike. -/
structure IsBound (bound : Cost → Nat) : Prop where
  zero : bound .zero = 0
  plus : ∀ a b : Cost, bound (a.plus b) = saturate (bound a + bound b)
  times : ∀ a b : Cost, bound (a.times b) = saturate (bound a * bound b)

theorem isBound_low : IsBound low where
  zero := rfl
  plus _ _ := low_ofBounds _ _
  times _ _ := low_ofBounds _ _

theorem isBound_high : IsBound high where
  zero := rfl
  plus _ _ := high_ofBounds _ _
  times _ _ := high_ofBounds _ _

/-- A cost as arithmetic writes it: its bounds tell all of it. -/
def Plain (cost : Cost) : Prop :=
  cost = ofBounds cost.low cost.high

theorem plain_ofBounds (low high : Nat) : (ofBounds low high).Plain := by
  rw [Plain, low_ofBounds, high_ofBounds]

theorem Plain.ext {a b : Cost} (ha : a.Plain) (hb : b.Plain) (hlow : a.low = b.low)
    (hhigh : a.high = b.high) : a = b := by
  rw [ha, hb, hlow, hhigh]

/-- The low bound of a cost is not above the high one. -/
def Ordered (cost : Cost) : Prop :=
  cost.low ≤ cost.high

theorem ordered_ofBounds {low high : Nat} (h : low ≤ high) : (ofBounds low high).Ordered := by
  rwa [Ordered, low_ofBounds, high_ofBounds]

end Cost

namespace BoundSelection

/-- Two levels have the same selections, those on each parent in any order. -/
inductive Reordered : List BoundSelection → List BoundSelection → Prop where
  | nil : Reordered [] []
  | cons {selection : BoundSelection} {children rest others : List BoundSelection}
      (under : Reordered selection.children children) (beside : Reordered rest others) :
      Reordered (selection :: rest) ({ selection with children := children } :: others)
  | swap (selection other : BoundSelection) (rest : List BoundSelection) :
      Reordered (selection :: other :: rest) (other :: selection :: rest)
  | trans {level others more : List BoundSelection} (first : Reordered level others)
      (second : Reordered others more) : Reordered level more

/-- A level has what another one has and one selection more, of any response key, beside its selections or
somewhere below them. -/
inductive Extended : List BoundSelection → List BoundSelection → Prop where
  | beside (before after : List BoundSelection) (selection : BoundSelection) :
      Extended (before ++ after) (before ++ selection :: after)
  | under {selection : BoundSelection} {children : List BoundSelection}
      (before after : List BoundSelection) (more : Extended selection.children children) :
      Extended (before ++ selection :: after)
        (before ++ { selection with children := children } :: after)

end BoundSelection

namespace Schema

mutual

/-- A bound of the cost of a selection in numbers without a limit: that of the field itself, and for every
row of it that of the children. -/
def exactCost (schema : Schema) (settings : CostSettings) (bound : Cost → Nat) : BoundSelection → Nat
  | ⟨_, _, id, _, _, children⟩ =>
    let field := schema.field id
    bound (field.ownCost schema settings) +
      bound (field.expectedRows settings) * exactSum schema settings bound children

/-- A bound of the cost of a level in numbers without a limit. -/
def exactSum (schema : Schema) (settings : CostSettings) (bound : Cost → Nat) : List BoundSelection → Nat
  | [] => 0
  | selection :: rest => exactCost schema settings bound selection + exactSum schema settings bound rest

end

theorem exactCost_eq (schema : Schema) (settings : CostSettings) (bound : Cost → Nat)
    (selection : BoundSelection) : schema.exactCost settings bound selection =
      bound ((schema.field selection.field).ownCost schema settings) +
        bound ((schema.field selection.field).expectedRows settings) *
          schema.exactSum settings bound selection.children := by
  cases selection
  rfl

theorem exactSum_append (schema : Schema) (settings : CostSettings) (bound : Cost → Nat)
    (before after : List BoundSelection) : schema.exactSum settings bound (before ++ after) =
      schema.exactSum settings bound before + schema.exactSum settings bound after := by
  induction before with
  | nil => exact (Nat.zero_add _).symm
  | cons selection rest ih => rw [List.cons_append, exactSum, exactSum, ih, Nat.add_assoc]

section

variable {schema : Schema} {settings : CostSettings} {bound : Cost → Nat}

/-! ### Cut off at every step or once -/

section

variable (hbound : Cost.IsBound bound)

include hbound

/-- A selection costs the exact number, cut off, where its children do. -/
theorem bound_cost {selection : BoundSelection}
    (hchildren : bound (schema.costFrom settings .zero selection.children) =
      Cost.saturate (schema.exactSum settings bound selection.children)) :
    bound (schema.cost settings selection) =
      Cost.saturate (schema.exactCost settings bound selection) := by
  cases selection
  dsimp only at hchildren
  rw [cost, hbound.plus, hbound.times, hchildren, Cost.saturate_mul_right, Cost.saturate_add_right,
    exactCost]

/-- A level adds the exact number to the cost so far. The induction is on how deep the level reaches, and
for each level on its selections. -/
theorem bound_costFrom (level : List BoundSelection) : ∀ (total : Cost) (n : Nat),
    bound total = Cost.saturate n →
      bound (schema.costFrom settings total level) =
        Cost.saturate (n + schema.exactSum settings bound level) := by
  induction level using BoundSelection.level_induction with
  | step level below =>
      have hcost (selection : BoundSelection) (hmem : selection ∈ level) :
          bound (schema.cost settings selection) =
            Cost.saturate (schema.exactCost settings bound selection) := by
        have hchildren := below selection hmem .zero 0 hbound.zero
        rw [Nat.zero_add] at hchildren
        exact bound_cost hbound hchildren
      clear below
      induction level with
      | nil => exact fun total n htotal => htotal
      | cons selection rest ih =>
          intro total n htotal
          obtain ⟨hselection, hrest⟩ := List.forall_mem_cons.mp hcost
          have hnext : bound (total.plus (schema.cost settings selection)) =
              Cost.saturate (n + schema.exactCost settings bound selection) := by
            rw [hbound.plus, htotal, hselection, Cost.saturate_add]
          rw [costFrom, ih hrest _ _ hnext, exactSum, Nat.add_assoc]

theorem bound_totalCost (level : List BoundSelection) :
    bound (schema.totalCost settings level) = Cost.saturate (schema.exactSum settings bound level) := by
  have h : bound (schema.totalCost settings level) =
      Cost.saturate (0 + schema.exactSum settings bound level) :=
    bound_costFrom hbound level .zero 0 hbound.zero
  rwa [Nat.zero_add] at h

end

theorem plain_totalCost (level : List BoundSelection) : (schema.totalCost settings level).Plain := by
  have hfrom (total : Cost) (htotal : total.Plain) : (schema.costFrom settings total level).Plain := by
    induction level generalizing total with
    | nil => exact htotal
    | cons selection rest ih => exact ih _ (Cost.plain_ofBounds _ _)
  exact hfrom .zero rfl

/-- The cost of a level is that of the exact numbers, cut off once. -/
theorem totalCost_eq (level : List BoundSelection) :
    schema.totalCost settings level =
      .ofBounds (Cost.saturate (schema.exactSum settings Cost.low level))
        (Cost.saturate (schema.exactSum settings Cost.high level)) := by
  rw [← bound_totalCost Cost.isBound_low, ← bound_totalCost Cost.isBound_high]
  exact plain_totalCost level

/-! ### Order and number of siblings -/

open BoundSelection (Reordered Extended)

theorem exactSum_reordered {level others : List BoundSelection} (h : Reordered level others) :
    schema.exactSum settings bound others = schema.exactSum settings bound level := by
  induction h with
  | nil => rfl
  | cons _ _ under beside =>
      rw [exactSum, exactSum, exactCost_eq, exactCost_eq, beside]
      dsimp only
      rw [under]
  | swap selection other rest =>
      simp only [exactSum]
      omega
  | trans _ _ first second => rw [second, first]

theorem totalCost_reordered {level others : List BoundSelection} (h : Reordered level others) :
    schema.totalCost settings others = schema.totalCost settings level := by
  rw [totalCost_eq, totalCost_eq, exactSum_reordered h, exactSum_reordered h]

theorem exactSum_extended {level others : List BoundSelection} (h : Extended level others) :
    schema.exactSum settings bound level ≤ schema.exactSum settings bound others := by
  induction h with
  | beside before after selection =>
      rw [exactSum_append, exactSum_append, exactSum]
      omega
  | @under selection children before after _ more =>
      have hcost : schema.exactCost settings bound selection ≤
          schema.exactCost settings bound { selection with children := children } := by
        rw [exactCost_eq, exactCost_eq]
        exact Nat.add_le_add_left (Nat.mul_le_mul_left _ more) _
      rw [exactSum_append, exactSum_append, exactSum, exactSum]
      omega

/-- The bounds of a cost do not sink with one selection more. -/
theorem totalCost_extended (hbound : Cost.IsBound bound) {level others : List BoundSelection}
    (h : Extended level others) :
    bound (schema.totalCost settings level) ≤ bound (schema.totalCost settings others) := by
  rw [bound_totalCost hbound, bound_totalCost hbound]
  exact Cost.saturate_mono (exactSum_extended h)

end

/-! ### Low and high bounds -/

/-- All costs that fields declare have their bounds in order. -/
def CostsOrdered (schema : Schema) : Prop :=
  ∀ field ∈ schema.fields, ∀ cost ∈ field.cost?, cost.Ordered

section

variable {schema : Schema} {settings : CostSettings} (hlist : settings.listLow ≤ settings.listHigh)

include hlist

theorem ordered_expectedRows (field : Field) : (field.expectedRows settings).Ordered := by
  unfold Field.expectedRows
  split
  · exact Cost.ordered_ofBounds hlist
  · exact Nat.le_refl 1

theorem ordered_ownCost (hcosts : schema.CostsOrdered) (id : FieldId) :
    ((schema.field id).ownCost schema settings).Ordered := by
  unfold Field.ownCost
  split
  · next cost hcost =>
      rcases Nat.lt_or_ge id schema.fields.length with hid | hid
      · exact hcosts _ (field_mem hid) cost hcost
      · rw [field_of_le hid] at hcost
        cases hcost
  · split
    · exact Nat.le_refl 0
    · exact ordered_expectedRows hlist _

theorem exactSum_ordered (hcosts : schema.CostsOrdered) (level : List BoundSelection) :
    schema.exactSum settings Cost.low level ≤ schema.exactSum settings Cost.high level := by
  induction level using BoundSelection.level_induction with
  | step level below =>
      have hcost (selection : BoundSelection) (hmem : selection ∈ level) :
          schema.exactCost settings Cost.low selection ≤ schema.exactCost settings Cost.high selection := by
        rw [exactCost_eq, exactCost_eq]
        exact Nat.add_le_add (ordered_ownCost hlist hcosts _)
          (Nat.mul_le_mul (ordered_expectedRows hlist _) (below selection hmem))
      clear below
      induction level with
      | nil => exact Nat.le_refl 0
      | cons selection rest ih =>
          obtain ⟨hselection, hrest⟩ := List.forall_mem_cons.mp hcost
          rw [exactSum, exactSum]
          exact Nat.add_le_add hselection (ih hrest)

theorem ordered_totalCost (hcosts : schema.CostsOrdered) (level : List BoundSelection) :
    (schema.totalCost settings level).Ordered := by
  rw [Cost.Ordered, bound_totalCost Cost.isBound_low, bound_totalCost Cost.isBound_high]
  exact Cost.saturate_mono (exactSum_ordered hlist hcosts level)

end

end Schema

end GraphQuery
