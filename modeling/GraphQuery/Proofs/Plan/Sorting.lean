import GraphQuery.Plan.Eval
import GraphQuery.Proofs.Plan.Comparison
import GraphQuery.Proofs.Plan.Order
import GraphQuery.Proofs.Query.Arrangement
import Mathlib.Data.List.FinRange

/-! Sorting by keys. What a sort does is told by places: the items of a source, each known by where it stands, are
rearranged so that their keys rise, or fall, in the sense in which filters compare them, null below all others,
and items with equal keys stay in the order in which they came. -/

namespace GraphQuery.Sort

variable {a b c : Value}

/-- Sorting downwards is sorting by the order that is turned round. -/
theorem keyBefore_descending (a b : Value) : keyBefore true a b = keyBefore false b a := by
  show (a.order b == .gt) = (b.order a == .lt)
  rw [Value.order_swap a b]
  cases a.order b <;> rfl

theorem keyBefore_eq_false_iff : keyBefore false b a = false ↔ (a.order b).isLE = true := by
  show (b.order a == .lt) = false ↔ _
  rw [Value.order_swap a b]
  cases a.order b <;> decide

theorem keyBefore_asymm (descending : Bool) (h : keyBefore descending a b = true) :
    keyBefore descending b a = false := by
  have hrising {a b : Value} (h : keyBefore false a b = true) : keyBefore false b a = false := by
    rw [keyBefore_eq_false_iff, beq_iff_eq.mp h]
    rfl
  cases descending with
  | false => exact hrising h
  | true =>
      rw [keyBefore_descending] at h ⊢
      exact hrising h

theorem keyBefore_trans (descending : Bool) (hfirst : a ≠ .null → b ≠ .null → a.comparable b = true)
    (hsecond : b ≠ .null → c ≠ .null → b.comparable c = true) (hab : keyBefore descending b a = false)
    (hbc : keyBefore descending c b = false) : keyBefore descending c a = false := by
  cases descending with
  | false =>
      rw [keyBefore_eq_false_iff] at hab hbc ⊢
      exact Value.order_trans hfirst hsecond hab hbc
  | true =>
      rw [keyBefore_descending, keyBefore_eq_false_iff] at hab hbc ⊢
      refine Value.order_trans (fun hc hb => ?_) (fun hb ha => ?_) hbc hab
      · exact Value.comparable_symm (hsecond hb hc)
      · exact Value.comparable_symm (hfirst ha hb)

/-- Places of items that are arranged by their keys: upwards, or downwards, as filters compare them, null below
all others, and places of equal keys rising. -/
structure Arranged (descending : Bool) {count : Nat} (keys : Fin count → Value) (places : List (Fin count)) :
    Prop where
  perm : places.Perm (List.finRange count)
  nulls : places.Pairwise fun i j =>
    if descending then keys i = .null → keys j = .null else keys j = .null → keys i = .null
  ordered : places.Pairwise fun i j => keys i ≠ .null → keys j ≠ .null →
    (if descending then Comparison.ge else Comparison.le).holds (keys i) (keys j) = true
  stable : places.Pairwise fun i j =>
    Comparison.eq.holds (keys i) (keys j) = true ∨ (keys i = .null ∧ keys j = .null) → i < j

section

variable {count : Nat} {keys : Fin count → Value}
  (hkind : ∀ i j, keys i ≠ .null → keys j ≠ .null → (keys i).comparable (keys j) = true)

include hkind

/-- What stands behind another item has no smaller key, in the direction of the sort. -/
theorem arranged_pair {descending : Bool} {i j : Fin count}
    (h : keyBefore descending (keys j) (keys i) = false) :
    (if descending then keys i = .null → keys j = .null else keys j = .null → keys i = .null) ∧
      (keys i ≠ .null → keys j ≠ .null →
        (if descending then Comparison.ge else Comparison.le).holds (keys i) (keys j) = true) := by
  cases descending with
  | false =>
      rw [keyBefore_eq_false_iff] at h
      refine ⟨fun hnull => ?_, fun hi hj => (Comparison.le_holds_iff (hkind i j hi hj)).mpr h⟩
      rw [hnull] at h
      exact Value.order_null_right h
  | true =>
      rw [keyBefore_descending, keyBefore_eq_false_iff] at h
      refine ⟨fun hnull => ?_, fun hi hj => (Comparison.ge_holds_iff (hkind i j hi hj)).mpr h⟩
      rw [hnull] at h
      exact Value.order_null_right h

/-- Keys that a filter finds equal are not told apart. -/
theorem keyBefore_of_equal (descending : Bool) {i j : Fin count}
    (h : Comparison.eq.holds (keys i) (keys j) = true ∨ (keys i = .null ∧ keys j = .null)) :
    keyBefore descending (keys i) (keys j) = false := by
  have hequal : (keys i).order (keys j) = .eq := by
    by_cases hi : keys i = .null
    · have hj : keys j = .null := by
        rcases h with h | h
        · rw [hi] at h
          exact Value.isNull_iff.mp ((Value.null_looselyEqual _).symm.trans h)
        · exact h.2
      rw [hi, hj]
      rfl
    · have hj : keys j ≠ .null := by
        intro hj
        rcases h with h | h
        · rw [hj] at h
          exact hi (Value.isNull_iff.mp ((Value.looselyEqual_null _).symm.trans h))
        · exact hi h.1
      rcases h with h | h
      · exact (Comparison.eq_holds_iff (hkind i j hi hj)).mp h
      · exact absurd h.1 hi
  cases descending <;> simp [keyBefore, hequal]

/-- Places sorted by the keys that stand there are arranged. -/
theorem arranged_stable (descending : Bool) :
    Arranged descending keys
      (stable (fun i j => keyBefore descending (keys i) (keys j)) (List.finRange count)) := by
  have hasymm (i j : Fin count) (h : keyBefore descending (keys i) (keys j) = true) :
      keyBefore descending (keys j) (keys i) = false :=
    keyBefore_asymm descending h
  have htrans (i j k : Fin count) (hij : keyBefore descending (keys j) (keys i) = false)
      (hjk : keyBefore descending (keys k) (keys j) = false) :
      keyBefore descending (keys k) (keys i) = false :=
    keyBefore_trans descending (hkind i j) (hkind j k) hij hjk
  have hsorted := pairwise_stable hasymm htrans (List.finRange count)
  refine ⟨perm_stable _ _, hsorted.imp fun h => (arranged_pair hkind h).1,
    hsorted.imp fun h => (arranged_pair hkind h).2, List.pairwise_iff_forall_sublist.mpr ?_⟩
  intro i j hpair hequal
  have hsource := pair_sublist_of_stable hasymm htrans hpair (keyBefore_of_equal hkind descending hequal)
  exact List.pairwise_iff_forall_sublist.mp (List.pairwise_lt_finRange count) hsource

end

end GraphQuery.Sort

namespace GraphQuery.Plan

theorem withKeys_ok {key : Value → Except StoreError Value} {items : List Value}
    {keys : Fin items.length → Value} (h : ∀ place, key (items.get place) = .ok (keys place)) :
    withKeys key items =
      .ok ((List.finRange items.length).map fun place => (keys place, items.get place)) := by
  induction items with
  | nil => rfl
  | cons item rest ih =>
      have hhead : key item = .ok (keys 0) := h 0
      have htail := ih fun place => h place.succ
      have hplaces := congrArg
        (List.map fun place : Fin (rest.length + 1) => (keys place, (item :: rest).get place)) List.finRange_succ
      rw [List.map_cons, List.map_map] at hplaces
      refine Outcome.bind_ok_iff.mpr ⟨_, hhead, Outcome.bind_ok_iff.mpr ⟨_, htail, congrArg Except.ok ?_⟩⟩
      exact hplaces.symm

/-- **Sorting is stable and agrees with comparison.** Where items and keys are found, and any two keys that are
not null are of one comparable kind, a sort gives the items of the source at places that are arranged by
their keys: all items, null first upwards and last downwards, any two others as the comparisons of filters
have them, and items with equal keys in the order of the source. -/
theorem orderBy_arranged (source : Source) (vars : List (String × Value)) (row : Value) (items key : Plan)
    (descending : Bool) {list : List Value} (hitems : items.evalIn source vars row = .ok (.array list))
    {keys : Fin list.length → Value}
    (hkeys : ∀ place, key.evalIn source vars (list.get place) = .ok (keys place))
    (hkind : ∀ i j, keys i ≠ .null → keys j ≠ .null → (keys i).comparable (keys j) = true) :
    ∃ places, Sort.Arranged descending keys places ∧ (places.map list.get).Perm list ∧
      (orderBy items key descending).evalIn source vars row = .ok (.array (places.map list.get)) := by
  have harranged := Sort.arranged_stable hkind descending
  refine ⟨_, harranged, ?_, ?_⟩
  · calc (List.map list.get _).Perm ((List.finRange list.length).map list.get) := harranged.perm.map _
      _ = list := List.map_get_finRange list
  · have hkeyed : withKeys (fun item => key.evalIn source vars item) list = .ok _ := withKeys_ok hkeys
    rw [evalIn]
    refine Outcome.bind_ok_iff.mpr ⟨_, hitems, ?_⟩
    rw [Value.mapSequence_array]
    refine Outcome.map_ok_iff.mpr ⟨_, Outcome.bind_ok_iff.mpr ⟨_, hkeyed, rfl⟩, ?_⟩
    rw [Sort.byKey, Sort.stable_map, List.map_map]
    rfl

/-- Toys sorted downwards by an age that some have as a whole number, some as a double and some not at all: the two
of age two stay in their order, and so do both zeros and those without an age. -/
theorem toys_arranged :
    let toy (id : Nat) (age : Value) : Value := .object [("age", age), ("id", .nat id)]
    let list : List Value := [toy 0 (.int 2), toy 1 .null, toy 2 (.number (.float ⟨true, 0, by decide⟩)),
      toy 3 (.number (.float ⟨false, 0x4000000000000000, by decide⟩)), toy 4 (.int 0), .object [("id", .nat 5)]]
    let age : Plan := .member .row "age"
    let keys : Fin list.length → Value := fun place => ((list.get place).get? "age").getD .null
    ((Plan.const (.array list)).evalIn .inProcess [] .null = .ok (.array list) ∧
        (∀ place, age.evalIn .inProcess [] (list.get place) = .ok (keys place)) ∧
        ∀ i j, keys i ≠ .null → keys j ≠ .null → (keys i).comparable (keys j) = true) ∧
      (orderBy (.const (.array list)) age true).evalIn .inProcess [] .null =
        .ok (.array ([0, 3, 2, 4, 1, 5].map list.get)) ∧
      ∃ places, Sort.Arranged true keys places ∧ (places.map list.get).Perm list ∧
        (orderBy (.const (.array list)) age true).evalIn .inProcess [] .null =
          .ok (.array (places.map list.get)) := by
  intro toy list age keys
  have hnumber (place : Fin list.length) : keys place = .null ∨ ∃ n, keys place = .number n := by
    match place with
    | 0 | 2 | 3 | 4 => exact Or.inr ⟨_, rfl⟩
    | 1 | 5 => exact Or.inl rfl
  have hkind (i j : Fin list.length) (hi : keys i ≠ .null) (hj : keys j ≠ .null) :
      (keys i).comparable (keys j) = true := by
    obtain ⟨m, hm⟩ := (hnumber i).resolve_left hi
    obtain ⟨n, hn⟩ := (hnumber j).resolve_left hj
    rw [hm, hn]
    rfl
  refine ⟨⟨rfl, fun _ => rfl, hkind⟩, by rfl, ?_⟩
  exact orderBy_arranged .inProcess [] .null (.const (.array list)) age true rfl (fun _ => rfl) hkind

end GraphQuery.Plan
