import GraphQuery.Proofs.Store.Documents

/-! Plans that are alike. Wherever they are evaluated, two plans fail with one failure or have values that are
related. Both or neither cast, so that a store answers both of them or refuses both. -/

namespace GraphQuery

namespace Plan

/-- Plans that cast both or not at all, and that fail alike or have related values. -/
structure Alike (relation : Value → Value → Prop) (plan other : Plan) : Prop where
  casts : plan.any isCast = other.any isCast
  values : ∀ source vars row,
    Outcome.Agree relation (plan.evalIn source vars row) (other.evalIn source vars row)

variable {relation : Value → Value → Prop}

theorem Alike.self (hrelation : ∀ value, relation value value) (plan : Plan) : plan.Alike relation plan := by
  refine ⟨rfl, fun source vars row => (Outcome.Agree.refl _).mono ?_⟩
  rintro value _ rfl
  exact hrelation value

theorem Alike.run {plan other : Plan} (h : plan.Alike relation other) (source : Source) :
    Outcome.Agree relation (plan.run source) (other.run source) :=
  h.values source [] .null

end Plan

/-- A store answers plans that are alike with related values, or refuses both. -/
theorem World.answer_alike {relation : Value → Value → Prop} {plan other : Plan} (h : plan.Alike relation other)
    (world : World) (name : String) :
    Outcome.Agree relation (world.answer name plan) (world.answer name other) := by
  unfold answer
  cases world.endpoint? name with
  | none => exact .error _
  | some endpoint =>
      show Outcome.Agree _ (if _ && plan.any Plan.isCast then _ else plan.run _)
        (if _ && other.any Plan.isCast then _ else other.run _)
      rw [h.casts]
      split
      · exact .error _
      · exact h.run _

end GraphQuery
