import GraphQuery.Proofs.Number.Rounding
import GraphQuery.Proofs.Plan.Comparison

/-! Comparing integers. Numbers are compared by their doubles, so that integers are compared by the nearest integers
of 53 significant bits. That is exact but for two integers that share the nearest one: every comparison takes
them for equal, and a filter keeps a row of either. -/

namespace GraphQuery.Comparison

open Binary64 (nearestInt)

/-- The answer of a comparison on integers. -/
def onInts : Comparison → Int → Int → Bool
  | .eq, i, j => decide (i = j)
  | .ne, i, j => decide (i ≠ j)
  | .lt, i, j => decide (i < j)
  | .le, i, j => decide (i ≤ j)
  | .gt, i, j => decide (j < i)
  | .ge, i, j => decide (j ≤ i)

theorem onInts_eq_reads (comparison : Comparison) (i j : Int) :
    comparison.onInts i j = comparison.reads (compare i j) := by
  rcases lt_trichotomy i j with h | rfl | h
  · rw [Int.compare_eq_lt.mpr h]
    cases comparison <;> simp [onInts, reads, h, h.ne, h.le, h.not_gt, h.not_ge]
  · rw [Int.compare_eq_eq.mpr rfl]
    cases comparison <;> simp [onInts, reads]
  · rw [Int.compare_eq_gt.mpr h]
    cases comparison <;> simp [onInts, reads, h, h.ne', h.le, h.not_gt, h.not_ge]

/-- An integer that fits 64 bits, with a sign or without one. -/
def Fits (i : Int) : Prop :=
  -0x8000000000000000 ≤ i ∧ i < 0x10000000000000000

variable {i j : Int}

theorem Fits.log2_lt (h : Fits i) : i.natAbs.log2 < 1023 := by
  obtain ⟨hlow, hhigh⟩ := h
  by_cases hi : i.natAbs = 0
  · rw [hi]
    decide
  · have hlog : i.natAbs.log2 < 64 := (Nat.log2_lt hi).mpr (by omega)
    omega

theorem order_int (hi : Fits i) (hj : Fits j) :
    (Value.int i).order (.int j) = compare (nearestInt i) (nearestInt j) := by
  have hless : (Number.int i).rank < (Number.int j).rank ↔ nearestInt i < nearestInt j :=
    Binary64.rank_ofInt_lt_iff hi.log2_lt hj.log2_lt
  have hmore : (Number.int j).rank < (Number.int i).rank ↔ nearestInt j < nearestInt i :=
    Binary64.rank_ofInt_lt_iff hj.log2_lt hi.log2_lt
  refine (Value.order_number (.int i) (.int j)).trans ?_
  rcases lt_trichotomy (nearestInt i) (nearestInt j) with h | h | h
  · rw [Int.compare_eq_lt.mpr (hless.mpr h), Int.compare_eq_lt.mpr h]
  · have hranks : (Number.int i).rank = (Number.int j).rank := by omega
    rw [h, hranks, Int.compare_eq_eq.mpr rfl, Int.compare_eq_eq.mpr rfl]
  · rw [Int.compare_eq_gt.mpr (hmore.mpr h), Int.compare_eq_gt.mpr h]

/-- Integers are compared as the nearest ones of 53 significant bits are. -/
theorem holds_int (comparison : Comparison) (hi : Fits i) (hj : Fits j) :
    comparison.holds (.int i) (.int j) = comparison.onInts (nearestInt i) (nearestInt j) := by
  rw [holds_eq_reads comparison rfl, order_int hi hj, onInts_eq_reads]

/-- Rounding changes the answers of comparisons on two different integers if and only if it makes them one. -/
theorem onInts_nearest_iff :
    (∀ comparison : Comparison, comparison.onInts (nearestInt i) (nearestInt j) = comparison.onInts i j) ↔
      i = j ∨ nearestInt i ≠ nearestInt j := by
  constructor
  · intro h
    have hequal := h .eq
    simp only [onInts, decide_eq_decide] at hequal
    by_cases hij : i = j
    · exact Or.inl hij
    · exact Or.inr fun hnearest => hij (hequal.mp hnearest)
  · rintro (rfl | hne) comparison
    · cases comparison <;> simp [onInts]
    · have hup := @Binary64.nearestInt_mono i j
      have hdown := @Binary64.nearestInt_mono j i
      cases comparison <;> simp only [onInts, decide_eq_decide] <;> omega

/-- **Integers are compared exactly unless rounding confounds them.** The six comparisons of two integers of 64 bits
are those of the nearest integers of 53 significant bits, and so they are exact if and only if the two integers
are one or have different nearest ones, as they have whenever one of them lies within `2 ^ 53`. A filter on an
integer keeps just those of the rows with an integer member whose nearest integer is its own. -/
theorem integers_compared_iff (hi : Fits i) (hj : Fits j) :
    (∀ comparison : Comparison,
      comparison.holds (.int i) (.int j) = comparison.onInts (nearestInt i) (nearestInt j)) ∧
    ((∀ comparison : Comparison, comparison.holds (.int i) (.int j) = comparison.onInts i j) ↔
      i = j ∨ nearestInt i ≠ nearestInt j) ∧
    (i.natAbs < 2 ^ 53 ∨ j.natAbs < 2 ^ 53 → i = j ∨ nearestInt i ≠ nearestInt j) ∧
    ∀ (source : Source) (vars : List (String × Value)) (row : Value) (items : Plan) (list : List Value),
      items.evalIn source vars row = .ok (.array list) → ∀ name, ∃ kept,
        (Plan.filter items (.compare .eq (.member .row name) (.const (.int i)))).evalIn source vars row =
            .ok (.array kept) ∧
          ∀ document ∈ list, document.get? name = some (.int j) →
            (document ∈ kept ↔ nearestInt j = nearestInt i) := by
  have hnearest (comparison : Comparison) := holds_int comparison hi hj
  refine ⟨hnearest, ?_, ?_, ?_⟩
  · rw [← onInts_nearest_iff]
    exact forall_congr' fun comparison => by rw [hnearest]
  · intro hsmall
    by_cases hij : i = j
    · exact Or.inl hij
    · refine Or.inr fun hsame => hij ?_
      rcases hsmall with hsmall | hsmall
      · exact (Binary64.eq_of_nearestInt hsmall hsame.symm).symm
      · exact Binary64.eq_of_nearestInt hsmall hsame
  · intro source vars row items list hitems name
    refine ⟨_, Plan.filter_member_ok hitems .eq name (.int i), fun document hmem hmember => ?_⟩
    rw [List.mem_filter, hmember, Option.getD_some, holds_int .eq hj hi]
    simp only [hmem, true_and, onInts, decide_eq_true_eq]

/-- Two of the largest integers without a sign that a double still tells apart. -/
theorem large_integers_compared :
    (Fits 0xFFFFFFFFFFFFFFFF ∧ Fits 0xFFFFFFFFFFFFF7FF) ∧ ∀ comparison : Comparison,
      comparison.holds (.int 0xFFFFFFFFFFFFFFFF) (.int 0xFFFFFFFFFFFFF7FF) =
        comparison.onInts 0xFFFFFFFFFFFFFFFF 0xFFFFFFFFFFFFF7FF := by
  have hfirst : Fits 0xFFFFFFFFFFFFFFFF := by constructor <;> decide
  have hsecond : Fits 0xFFFFFFFFFFFFF7FF := by constructor <;> decide
  exact ⟨⟨hfirst, hsecond⟩, (integers_compared_iff hfirst hsecond).2.1.mpr (Or.inr (by decide))⟩

/-- The first integer that a double cannot hold and the one before it: a filter on the one keeps a row of the other. -/
theorem neighbours_confounded :
    Fits 9007199254740992 ∧ Fits 9007199254740993 ∧
      Comparison.eq.holds (.int 9007199254740992) (.int 9007199254740993) = true ∧
      Comparison.eq.onInts 9007199254740992 9007199254740993 = false ∧
      (Plan.filter (.const (.array [.object [("id", .int 9007199254740992)]]))
        (.compare .eq (.member .row "id") (.const (.int 9007199254740993)))).run .inProcess =
          .ok (.array [.object [("id", .int 9007199254740992)]]) := by
  refine ⟨⟨by decide, by decide⟩, ⟨by decide, by decide⟩, rfl, rfl, rfl⟩

end GraphQuery.Comparison
