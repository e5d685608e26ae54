import GraphQuery.Plan.Eval
import GraphQuery.Proofs.Query.Arrangement
import Mathlib.Order.Compare
import Mathlib.Data.String.Basic

/-! Comparing values. Filters compare two values of one kind, and sorts order keys of one kind with null before
all others: within a kind both go by one order, so that what a filter finds equal, below or above stands so in
a sort. The exchange of two values turns every order of keys round; only across kinds is it no order. -/

namespace GraphQuery

namespace Value

variable {a b c : Value}

/-- Values of one comparable kind are two numbers, two texts or two truth values. -/
theorem comparable_cases (h : a.comparable b = true) :
    (∃ m n, a = .number m ∧ b = .number n) ∨ (∃ s t, a = .string s ∧ b = .string t) ∨
      ∃ p q, a = .bool p ∧ b = .bool q := by
  unfold comparable at h
  split at h
  · exact Or.inl ⟨_, _, rfl, rfl⟩
  · exact Or.inr (Or.inl ⟨_, _, rfl, rfl⟩)
  · exact Or.inr (Or.inr ⟨_, _, rfl, rfl⟩)
  · cases h

theorem comparable_symm (h : a.comparable b = true) : b.comparable a = true := by
  rcases comparable_cases h with ⟨m, n, rfl, rfl⟩ | ⟨s, t, rfl, rfl⟩ | ⟨p, q, rfl, rfl⟩ <;> rfl

/-! ### The order of keys -/

theorem order_number (m n : Number) : (Value.number m).order (.number n) = compare m.rank n.rank := rfl

theorem order_string (s t : String) : (Value.string s).order (.string t) = compare s t := rfl

theorem order_bool (p q : Bool) : (Value.bool p).order (.bool q) = compare p.toNat q.toNat := rfl

/-- An exchange of two keys turns their order round, of whatever kinds they are. -/
theorem order_swap (a b : Value) : b.order a = (a.order b).swap := by
  cases a <;> cases b <;> try rfl
  · rw [order_bool, order_bool]
    exact Std.OrientedOrd.eq_swap
  · rw [order_number, order_number]
    exact Std.OrientedOrd.eq_swap
  · rw [order_string, order_string]
    exact Std.OrientedOrd.eq_swap

/-- Null comes before every other key. -/
theorem order_null_left (b : Value) : (Value.null.order b).isLE = true := by
  cases b <;> rfl

theorem order_null_right (h : (a.order .null).isLE = true) : a = .null := by
  cases a <;> first | rfl | cases h

/-- Keys that are null or of one kind stand in one order. -/
theorem order_trans (hfirst : a ≠ .null → b ≠ .null → a.comparable b = true)
    (hsecond : b ≠ .null → c ≠ .null → b.comparable c = true) (hab : (a.order b).isLE = true)
    (hbc : (b.order c).isLE = true) : (a.order c).isLE = true := by
  by_cases ha : a = .null
  · rw [ha]
    exact order_null_left c
  have hb : b ≠ .null := by
    rintro rfl
    exact ha (order_null_right hab)
  have hc : c ≠ .null := by
    rintro rfl
    exact hb (order_null_right hbc)
  have hother := hsecond hb hc
  rcases comparable_cases (hfirst ha hb) with ⟨m, n, rfl, rfl⟩ | ⟨s, t, rfl, rfl⟩ | ⟨p, q, rfl, rfl⟩
  · rcases comparable_cases hother with ⟨_, k, heq, rfl⟩ | ⟨_, _, heq, _⟩ | ⟨_, _, heq, _⟩ <;> cases heq
    rw [order_number] at hab hbc ⊢
    exact Std.TransCmp.isLE_trans hab hbc
  · rcases comparable_cases hother with ⟨_, _, heq, _⟩ | ⟨_, u, heq, rfl⟩ | ⟨_, _, heq, _⟩ <;> cases heq
    rw [order_string] at hab hbc ⊢
    exact Std.TransCmp.isLE_trans hab hbc
  · rcases comparable_cases hother with ⟨_, _, heq, _⟩ | ⟨_, _, heq, _⟩ | ⟨_, r, heq, rfl⟩ <;> cases heq
    rw [order_bool] at hab hbc ⊢
    exact Std.TransCmp.isLE_trans hab hbc

/-! ### Filters and sorts -/

/-- Two values of one kind are equal for a filter if and only if a sort does not tell them apart. -/
theorem looselyEqual_iff_order (h : a.comparable b = true) : a.looselyEqual b = true ↔ a.order b = .eq := by
  rcases comparable_cases h with ⟨m, n, rfl, rfl⟩ | ⟨s, t, rfl, rfl⟩ | ⟨p, q, rfl, rfl⟩
  · rw [order_number, Std.LawfulEqCmp.compare_eq_iff_eq]
    exact beq_iff_eq
  · rw [order_string, Std.LawfulEqCmp.compare_eq_iff_eq]
    exact beq_iff_eq (α := String)
  · cases p <;> cases q <;> decide

/-- Null is equal to nothing else. -/
theorem looselyEqual_null (a : Value) : a.looselyEqual .null = a.isNull := by
  cases a <;> rfl

theorem null_looselyEqual (a : Value) : Value.null.looselyEqual a = a.isNull := by
  cases a <;> rfl

theorem isNull_iff : a.isNull = true ↔ a = .null := by
  cases a <;> simp [isNull]

end Value

namespace Comparison

/-- What a comparison says of two values that stand in an order. -/
def reads : Comparison → Ordering → Bool
  | .eq, order => order == .eq
  | .ne, order => order != .eq
  | .lt, order => order == .lt
  | .le, order => order != .gt
  | .gt, order => order == .gt
  | .ge, order => order != .lt

variable {a b : Value}

/-- Within one kind all comparisons are read off the order of the two values. -/
theorem holds_eq_reads (comparison : Comparison) (h : a.comparable b = true) :
    comparison.holds a b = comparison.reads (a.order b) := by
  have hequal : a.looselyEqual b = (a.order b == .eq) := by
    rw [Bool.eq_iff_iff, Value.looselyEqual_iff_order h, beq_iff_eq]
  cases comparison with
  | eq => exact hequal
  | ne => exact congrArg Bool.not hequal
  | lt | le | gt | ge => simp only [holds, reads, h, Bool.true_and]

theorem eq_holds_iff (h : a.comparable b = true) : Comparison.eq.holds a b = true ↔ a.order b = .eq := by
  rw [holds_eq_reads _ h]
  exact beq_iff_eq

theorem le_holds_iff (h : a.comparable b = true) :
    Comparison.le.holds a b = true ↔ (a.order b).isLE = true := by
  rw [holds_eq_reads _ h]
  cases a.order b <;> decide

theorem ge_holds_iff (h : a.comparable b = true) :
    Comparison.ge.holds a b = true ↔ (b.order a).isLE = true := by
  rw [holds_eq_reads _ h, Value.order_swap a b]
  cases a.order b <;> decide

end Comparison

namespace Plan

theorem keepWhere_ok {test : Value → Except StoreError Bool} {passes : Value → Bool} {items : List Value}
    (h : ∀ item ∈ items, test item = .ok (passes item)) : keepWhere test items = .ok (items.filter passes) := by
  induction items with
  | nil => rfl
  | cons item rest ih =>
      obtain ⟨hitem, hrest⟩ := List.forall_mem_cons.mp h
      refine Outcome.bind_ok_iff.mpr ⟨_, hitem, Outcome.bind_ok_iff.mpr ⟨_, ih hrest, ?_⟩⟩
      rw [List.filter_cons]
      rfl

/-- A filter by a member of its rows keeps those whose member compares with the value; a member that a row does not
have is null. -/
theorem filter_member_ok {source : Source} {vars : List (String × Value)} {row : Value} {items : Plan}
    {list : List Value} (hitems : items.evalIn source vars row = .ok (.array list)) (comparison : Comparison)
    (name : String) (value : Value) :
    (filter items (.compare comparison (.member .row name) (.const value))).evalIn source vars row =
      .ok (.array (list.filter fun item => comparison.holds ((item.get? name).getD .null) value)) := by
  rw [evalIn]
  refine Outcome.bind_ok_iff.mpr ⟨_, hitems, ?_⟩
  rw [Value.mapSequence_array]
  refine Outcome.map_ok_iff.mpr ⟨_, keepWhere_ok fun item _ => ?_, rfl⟩
  show Except.ok (Value.bool (comparison.holds ((item.get? name).getD .null) value)).isTrue = _
  cases comparison.holds ((item.get? name).getD .null) value <;> rfl

end Plan

end GraphQuery
