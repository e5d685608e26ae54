import GraphQuery.Proofs.Plan.Sorting
import Mathlib.Data.List.Chain
import Mathlib.Data.List.Forall2

/-! Keys of several kinds. Two keys of different kinds count as equal, null aside, and so the order of keys is
transitive on some keys if and only if no two that differ within their kind occur beside one of another kind. A
sort leaves no row directly behind one that its key belongs before. Where the order is transitive this settles the
outcome, ties apart; where it is not, rows can be sorted in several ways, and which one comes out is up to the
algorithm. -/

namespace GraphQuery.Value

variable {a b c : Value}

theorem comparable_trans (hab : a.comparable b = true) (hbc : b.comparable c = true) : a.comparable c = true := by
  rcases comparable_cases hab with ⟨m, n, rfl, rfl⟩ | ⟨s, t, rfl, rfl⟩ | ⟨p, q, rfl, rfl⟩ <;>
    cases c <;> first | rfl | cases hbc

theorem ne_null_of_comparable (h : a.comparable b = true) : a ≠ .null := by
  rintro rfl
  cases b <;> cases h

/-- Keys of different kinds count as equal, null aside. -/
theorem order_of_foreign (ha : a ≠ .null) (hb : b ≠ .null) (h : a.comparable b = false) : a.order b = .eq := by
  cases a <;> cases b <;> first | rfl | exact absurd rfl ha | exact absurd rfl hb | cases h

theorem isLE_of_order (h : a.order b = .eq) : (a.order b).isLE = true := by
  rw [h]
  rfl

theorem order_eq_gt_iff : a.order b = .gt ↔ ¬(a.order b).isLE = true := by
  cases a.order b <;> decide

/-- Keys of which neither is greater count as equal. -/
theorem order_antisymm (hab : (a.order b).isLE = true) (hba : (b.order a).isLE = true) : a.order b = .eq := by
  rw [order_swap a b] at hba
  cases h : a.order b <;> simp [h] at hab hba ⊢

/-- Only a key of the same kind is greater than one that is not null. -/
theorem comparable_of_greater (hc : c ≠ .null) (h : a.order c = .gt) : a.comparable c = true := by
  by_contra hforeign
  have ha : a ≠ .null := by
    rintro rfl
    exact order_eq_gt_iff.mp h (order_null_left c)
  exact order_eq_gt_iff.mp h (isLE_of_order (order_of_foreign ha hc (Bool.eq_false_iff.mpr hforeign)))

/-- Of three keys the first and the last are of one kind, in which the first is the greater one, and the other key
is one of another kind. -/
structure Mixed (a b c : Value) : Prop where
  comparable : a.comparable c = true
  greater : a.order c = .gt
  present : b ≠ .null
  foreign : a.comparable b = false

/-- Such a key counts as equal to both others. -/
theorem Mixed.order_eq (h : Mixed a b c) : a.order b = .eq ∧ b.order c = .eq := by
  have hc : c ≠ .null := ne_null_of_comparable (comparable_symm h.comparable)
  refine ⟨order_of_foreign (ne_null_of_comparable h.comparable) h.present h.foreign,
    order_of_foreign h.present hc ?_⟩
  by_contra hsame
  have hcb := comparable_symm (Bool.eq_true_of_not_eq_false hsame)
  exact Bool.false_ne_true (h.foreign.symm.trans (comparable_trans h.comparable hcb))

/-- The order of keys is transitive but for keys that mix kinds. -/
theorem order_trans_iff :
    ((a.order b).isLE = true → (b.order c).isLE = true → (a.order c).isLE = true) ↔ ¬Mixed a b c := by
  constructor
  · intro htrans hmixed
    obtain ⟨hab, hbc⟩ := hmixed.order_eq
    exact order_eq_gt_iff.mp hmixed.greater (htrans (isLE_of_order hab) (isLE_of_order hbc))
  · intro hnot hab hbc
    by_contra hgreater
    have hgreater := order_eq_gt_iff.mpr hgreater
    have hb : b ≠ .null := by
      rintro rfl
      rw [order_null_right hab] at hgreater
      exact order_eq_gt_iff.mp hgreater (order_null_left c)
    have hc : c ≠ .null := by
      rintro rfl
      exact hb (order_null_right hbc)
    have hac := comparable_of_greater hc hgreater
    have hsame : a.comparable b = true := by
      by_contra hforeign
      exact hnot ⟨hac, hgreater, hb, Bool.eq_false_iff.mpr hforeign⟩
    have hsame' := comparable_trans (comparable_symm hsame) hac
    exact order_eq_gt_iff.mp hgreater (order_trans (fun _ _ => hsame) (fun _ _ => hsame') hab hbc)

end GraphQuery.Value

namespace GraphQuery.Sort

/-! ### Ties -/

section

variable {α : Type} {before : α → α → Bool} (hasymm : ∀ a b, before a b = true → before b a = false)

include hasymm

/-- Of items in order none belongs before the first one, so none does of others of which as many do. -/
theorem before_head_eq_false {x y : α} {xs ys : List α}
    (hys : (y :: ys).Pairwise fun earlier later => before later earlier = false)
    (hcount : (x :: xs).countP (before · y) = (y :: ys).countP (before · y)) : before x y = false := by
  have hnone : (y :: ys).countP (before · y) = 0 := by
    refine List.countP_eq_zero.mpr fun item hitem hbefore => ?_
    rcases List.mem_cons.mp hitem with rfl | hbehind
    · exact Bool.false_ne_true ((hasymm item item hbefore).symm.trans hbefore)
    · exact Bool.false_ne_true (((List.pairwise_cons.mp hys).1 item hbehind).symm.trans hbefore)
  exact eq_false_of_ne_true (List.countP_eq_zero.mp (hcount.trans hnone) x List.mem_cons_self)

/-- Items in order are told by how many of them belong before each item, ties apart. -/
theorem tied_of_counts {all first second : List α}
    (htrans : ∀ a ∈ all, ∀ b ∈ all, ∀ c ∈ all, before b a = false → before c b = false → before c a = false)
    (hlength : first.length = second.length) (hmem : first ⊆ all) (hmemSecond : second ⊆ all)
    (hfirst : first.Pairwise fun earlier later => before later earlier = false)
    (hsecond : second.Pairwise fun earlier later => before later earlier = false)
    (hcounts : ∀ bound ∈ all, first.countP (before · bound) = second.countP (before · bound)) :
    List.Forall₂ (fun left right => before left right = false ∧ before right left = false) first second := by
  induction first generalizing second with
  | nil =>
      rw [List.eq_nil_of_length_eq_zero hlength.symm]
      exact List.Forall₂.nil
  | cons x xs ih =>
      cases second with
      | nil => cases hlength
      | cons y ys =>
          obtain ⟨hx, hxs⟩ := List.cons_subset.mp hmem
          obtain ⟨hy, hys⟩ := List.cons_subset.mp hmemSecond
          have hxy := before_head_eq_false hasymm hsecond (hcounts y hy)
          have hyx := before_head_eq_false hasymm hfirst (hcounts x hx).symm
          refine List.Forall₂.cons ⟨hxy, hyx⟩ (ih (Nat.succ.inj hlength) hxs hys hfirst.of_cons hsecond.of_cons ?_)
          intro bound hbound
          have hsame : before x bound = before y bound := by
            refine Bool.eq_iff_iff.mpr ⟨fun h => ?_, fun h => ?_⟩ <;> by_contra hnot
            · have hbehind := htrans bound hbound y hy x hx (eq_false_of_ne_true hnot) hxy
              exact Bool.false_ne_true (hbehind.symm.trans h)
            · have hbehind := htrans bound hbound x hx y hy (eq_false_of_ne_true hnot) hyx
              exact Bool.false_ne_true (hbehind.symm.trans h)
          have hcount := hcounts bound hbound
          rw [List.countP_cons, List.countP_cons, hsame] at hcount
          exact Nat.add_right_cancel hcount

end

/-! ### Sorted forms of items with keys -/

variable {keyed sorted first second : List (Value × Value)} {descending : Bool} {a b c : Value}

/-- A list is a sorted form of items with keys: a rearrangement in which none stands directly behind one that its
key belongs before. -/
structure Sorts (descending : Bool) (keyed sorted : List (Value × Value)) : Prop where
  perm : sorted.Perm keyed
  inOrder : InOrder (fun left right => keyBefore descending left.1 right.1) sorted

/-- What a sort gives is a sorted form, whatever the keys. -/
theorem sorts_byKey (descending : Bool) (keyed : List (Value × Value)) :
    Sorts descending keyed (byKey descending keyed) :=
  ⟨perm_stable _ _, inOrder_stable (fun _ _ => keyBefore_asymm descending) keyed⟩

/-- Sorting upwards and turning round is sorting downwards. -/
theorem Sorts.reverse (h : Sorts false keyed sorted) : Sorts true keyed sorted.reverse := by
  refine ⟨(List.reverse_perm sorted).trans h.perm, List.isChain_reverse.mpr (h.inOrder.imp ?_)⟩
  exact fun earlier later hpair => (keyBefore_descending earlier.1 later.1).trans hpair

/-- The outcome of a sort does not depend on how it is done: any two sorted forms have equal keys at each place. -/
def Settled (descending : Bool) (keyed : List (Value × Value)) : Prop :=
  ∀ first second, Sorts descending keyed first → Sorts descending keyed second →
    List.Forall₂ (fun left right => left.1.order right.1 = .eq) first second

/-- Among some keys no two of one kind that differ occur beside one of another kind. -/
def Unmixed (keys : List Value) : Prop :=
  ∀ a ∈ keys, ∀ b ∈ keys, ∀ c ∈ keys, ¬Value.Mixed a b c

theorem keyBefore_trans_of_unmixed (descending : Bool) (habc : ¬Value.Mixed a b c) (hcba : ¬Value.Mixed c b a)
    (hab : keyBefore descending b a = false) (hbc : keyBefore descending c b = false) :
    keyBefore descending c a = false := by
  cases descending with
  | false =>
      rw [keyBefore_eq_false_iff] at hab hbc ⊢
      exact Value.order_trans_iff.mpr habc hab hbc
  | true =>
      rw [keyBefore_descending, keyBefore_eq_false_iff] at hab hbc ⊢
      exact Value.order_trans_iff.mpr hcba hbc hab

/-- Keys of which neither belongs before the other are equal. -/
theorem order_eq_of_keyBefore (hab : keyBefore descending a b = false) (hba : keyBefore descending b a = false) :
    a.order b = .eq := by
  cases descending with
  | false =>
      rw [keyBefore_eq_false_iff] at hab hba
      exact Value.order_antisymm hba hab
  | true =>
      rw [keyBefore_descending, keyBefore_eq_false_iff] at hab hba
      exact Value.order_antisymm hab hba

theorem settled_of_unmixed (h : Unmixed (keyed.map Prod.fst)) : Settled descending keyed := by
  intro first second hfirst hsecond
  have hkey {item : Value × Value} (hitem : item ∈ keyed) : item.1 ∈ keyed.map Prod.fst := List.mem_map_of_mem hitem
  have htrans : ∀ a ∈ keyed, ∀ b ∈ keyed, ∀ c ∈ keyed, keyBefore descending b.1 a.1 = false →
      keyBefore descending c.1 b.1 = false → keyBefore descending c.1 a.1 = false := by
    intro a ha b hb c hc
    exact keyBefore_trans_of_unmixed descending (h _ (hkey ha) _ (hkey hb) _ (hkey hc))
      (h _ (hkey hc) _ (hkey hb) _ (hkey ha))
  have hperm := hfirst.perm.trans hsecond.perm.symm
  have htied := tied_of_counts (fun _ _ => keyBefore_asymm descending) htrans hperm.length_eq hfirst.perm.subset
    hsecond.perm.subset (hfirst.inOrder.pairwise htrans hfirst.perm.subset)
    (hsecond.inOrder.pairwise htrans hsecond.perm.subset) fun bound _ => hperm.countP_eq _
  exact htied.imp fun _ _ hpair => order_eq_of_keyBefore hpair.1 hpair.2

/-- Items in four parts: those without a key, those whose keys are below and those whose keys are above a bound
within one kind, and those with keys of other kinds. -/
structure Parted (keyed blank lower upper foreign : List (Value × Value)) : Prop where
  perm : (blank ++ (lower ++ (upper ++ foreign))).Perm keyed
  blank_null : ∀ item ∈ blank, item.1 = .null
  below : ∀ low ∈ lower, ∀ high ∈ upper, low.1.order high.1 = .lt
  apart : ∀ item ∈ lower ++ upper, ∀ other ∈ foreign, item.1.order other.1 = .eq

/-- The kind and the value of any key part items. -/
theorem parted_at (bound : Value) (keyed : List (Value × Value)) :
    let present := keyed.filter fun item => !item.1.isNull
    let own := present.filter fun item => bound.comparable item.1
    Parted keyed (keyed.filter fun item => item.1.isNull) (own.filter fun item => keyBefore false item.1 bound)
      (own.filter fun item => !keyBefore false item.1 bound)
      (present.filter fun item => !bound.comparable item.1) := by
  intro present own
  have hown {item : Value × Value} (hitem : item ∈ own) : bound.comparable item.1 = true :=
    (List.mem_filter.mp hitem).2
  refine ⟨?_, ?_, ?_, ?_⟩
  · rw [← List.append_assoc (own.filter _)]
    calc List.Perm _ (keyed.filter (fun item => item.1.isNull) ++
            (own ++ present.filter fun item => !bound.comparable item.1)) :=
          ((List.filter_append_perm _ own).append_right _).append_left _
      List.Perm _ (keyed.filter (fun item => item.1.isNull) ++ present) :=
          (List.filter_append_perm _ present).append_left _
      List.Perm _ keyed := List.filter_append_perm _ keyed
  · intro item hitem
    exact Value.isNull_iff.mp (List.mem_filter.mp hitem).2
  · intro low hlow high hhigh
    obtain ⟨hlow, hbelow⟩ := List.mem_filter.mp hlow
    obtain ⟨hhigh, habove⟩ := List.mem_filter.mp hhigh
    rw [Bool.not_eq_true'] at habove
    have hkinds := Value.comparable_trans (Value.comparable_symm (hown hhigh)) (hown hlow)
    refine beq_iff_eq.mp (Bool.eq_true_of_not_eq_false fun hnot => ?_)
    have hback := keyBefore_trans false (fun _ _ => hown hhigh) (fun _ _ => hkinds) habove hnot
    exact Bool.false_ne_true (hback.symm.trans hbelow)
  · intro item hitem other hother
    obtain ⟨hother, hforeign⟩ := List.mem_filter.mp hother
    have hitem : item ∈ own := by
      rcases List.mem_append.mp hitem with hitem | hitem <;> exact (List.mem_filter.mp hitem).1
    have hsame := hown hitem
    refine Value.order_of_foreign (Value.ne_null_of_comparable (Value.comparable_symm hsame)) ?_ ?_
    · intro hnull
      have hpresent := (List.mem_filter.mp hother).2
      rw [hnull] at hpresent
      exact Bool.false_ne_true hpresent
    · refine eq_false_of_ne_true fun hcomparable => ?_
      rw [Value.comparable_trans hsame hcomparable] at hforeign
      exact Bool.false_ne_true hforeign

theorem exists_parted {low high other : Value × Value} (hlow : low ∈ keyed) (hhigh : high ∈ keyed)
    (hother : other ∈ keyed) (h : Value.Mixed high.1 other.1 low.1) :
    ∃ blank lower upper foreign, Parted keyed blank lower upper foreign ∧ low ∈ lower ∧ high ∈ upper ∧
      other ∈ foreign := by
  have hpresent {item : Value × Value} (hitem : item ∈ keyed) (hne : item.1 ≠ .null) :
      item ∈ keyed.filter fun item => !item.1.isNull := by
    refine List.mem_filter.mpr ⟨hitem, ?_⟩
    rw [Bool.not_eq_true', Bool.eq_false_iff]
    exact fun hnull => hne (Value.isNull_iff.mp hnull)
  have hback := Value.comparable_symm h.comparable
  have hbelow : keyBefore false low.1 high.1 = true := by
    show (low.1.order high.1 == .lt) = true
    rw [Value.order_swap high.1, h.greater]
    rfl
  have hself : keyBefore false high.1 high.1 = false :=
    eq_false_of_ne_true fun h => Bool.false_ne_true ((keyBefore_asymm false h).symm.trans h)
  refine ⟨_, _, _, _, parted_at high.1 keyed, ?_, ?_, ?_⟩
  · exact List.mem_filter.mpr ⟨List.mem_filter.mpr
      ⟨hpresent hlow (Value.ne_null_of_comparable hback), h.comparable⟩, hbelow⟩
  · refine List.mem_filter.mpr ⟨List.mem_filter.mpr
      ⟨hpresent hhigh (Value.ne_null_of_comparable h.comparable), Value.comparable_trans h.comparable hback⟩, ?_⟩
    rw [hself]
    rfl
  · refine List.mem_filter.mpr ⟨hpresent hother h.present, ?_⟩
    rw [h.foreign]
    rfl

theorem inOrder_append (hfirst : InOrder (fun left right => keyBefore false left.1 right.1) first)
    (hsecond : InOrder (fun left right => keyBefore false left.1 right.1) second)
    (hturn : ∀ earlier ∈ first, ∀ later ∈ second.head?, (earlier.1.order later.1).isLE = true) :
    InOrder (fun left right => keyBefore false left.1 right.1) (first ++ second) := by
  refine List.IsChain.append hfirst hsecond fun earlier hearlier later hlater => ?_
  exact keyBefore_eq_false_iff.mpr (hturn earlier (List.mem_of_mem_getLast? hearlier) later hlater)

section

variable {blank lower upper foreign : List (Value × Value)}

/-- The parts can be sorted one by one. -/
theorem Parted.arranged (h : Parted keyed blank lower upper foreign) :
    Parted keyed (byKey false blank) (byKey false lower) (byKey false upper) (byKey false foreign) := by
  have hmem {part : List (Value × Value)} {item : Value × Value} : item ∈ byKey false part ↔ item ∈ part :=
    (sorts_byKey false part).perm.mem_iff
  have hsplit {item : Value × Value} :
      item ∈ byKey false lower ++ byKey false upper ↔ item ∈ lower ++ upper := by
    rw [List.mem_append, List.mem_append, hmem, hmem]
  have hperm (part : List (Value × Value)) := (sorts_byKey false part).perm
  refine ⟨?_, fun item hitem => h.blank_null item (hmem.mp hitem), fun low hlow high hhigh =>
    h.below low (hmem.mp hlow) high (hmem.mp hhigh), fun item hitem other hother =>
    h.apart item (hsplit.mp hitem) other (hmem.mp hother)⟩
  exact ((hperm blank).append ((hperm lower).append ((hperm upper).append (hperm foreign)))).trans h.perm

variable (h : Parted keyed blank lower upper foreign)
  (hblank : InOrder (fun left right => keyBefore false left.1 right.1) blank)
  (hlower : InOrder (fun left right => keyBefore false left.1 right.1) lower)
  (hupper : InOrder (fun left right => keyBefore false left.1 right.1) upper)
  (hforeign : InOrder (fun left right => keyBefore false left.1 right.1) foreign)

include h hblank hlower hupper hforeign

/-- The keys of other kinds can stand behind those above the bound, and these behind those below it. -/
theorem Parted.sorts_rising : Sorts false keyed (blank ++ (lower ++ (upper ++ foreign))) := by
  refine ⟨h.perm, inOrder_append hblank (inOrder_append hlower (inOrder_append hupper hforeign ?_) ?_) ?_⟩
  · intro high hhigh other hother
    exact Value.isLE_of_order (h.apart high (List.mem_append_right _ hhigh) other (List.mem_of_mem_head? hother))
  · intro low hlow later hlater
    rcases List.mem_append.mp (List.mem_of_mem_head? hlater) with hhigh | hother
    · rw [h.below low hlow later hhigh]
      rfl
    · exact Value.isLE_of_order (h.apart low (List.mem_append_left _ hlow) later hother)
  · intro item hitem later _
    rw [h.blank_null item hitem]
    exact Value.order_null_left later.1

/-- Between keys above the bound and keys below it, those of other kinds hide that these are the lesser ones. -/
theorem Parted.sorts_turned (hne : foreign ≠ []) : Sorts false keyed (blank ++ (upper ++ (foreign ++ lower))) := by
  have hperm : (upper ++ (foreign ++ lower)).Perm (lower ++ (upper ++ foreign)) := by
    rw [← List.append_assoc]
    exact List.perm_append_comm
  refine ⟨(hperm.append_left blank).trans h.perm,
    inOrder_append hblank (inOrder_append hupper (inOrder_append hforeign hlower ?_) ?_) ?_⟩
  · intro other hother low hlow
    have hapart := h.apart low (List.mem_append_left _ (List.mem_of_mem_head? hlow)) other hother
    rw [Value.order_swap low.1, hapart]
    rfl
  · intro high hhigh later hlater
    rw [List.head?_append_of_ne_nil _ hne] at hlater
    exact Value.isLE_of_order (h.apart high (List.mem_append_right _ hhigh) later (List.mem_of_mem_head? hlater))
  · intro item hitem later _
    rw [h.blank_null item hitem]
    exact Value.order_null_left later.1

theorem Parted.not_settled (hlow : lower ≠ []) (hhigh : upper ≠ []) (hother : foreign ≠ []) :
    ¬Settled false keyed := by
  intro hsettled
  have htied := hsettled _ _ (h.sorts_rising hblank hlower hupper hforeign)
    (h.sorts_turned hblank hlower hupper hforeign hother)
  replace htied := List.forall₂_drop blank.length htied
  rw [List.drop_left, List.drop_left] at htied
  obtain ⟨low, lows, rfl⟩ := List.exists_cons_of_ne_nil hlow
  obtain ⟨high, highs, rfl⟩ := List.exists_cons_of_ne_nil hhigh
  cases htied with
  | cons hhead _ =>
      rw [h.below low List.mem_cons_self high List.mem_cons_self] at hhead
      cases hhead

end

/-- Upwards or downwards, the outcome is settled for the same keys. -/
theorem settled_false_of_settled (h : Settled descending keyed) : Settled false keyed := by
  cases descending with
  | false => exact h
  | true =>
      intro first second hfirst hsecond
      exact List.forall₂_reverse_iff.mp (h _ _ hfirst.reverse hsecond.reverse)

/-- **The outcome of a sort is settled exactly if no keys mix kinds.** -/
theorem settled_iff : Settled descending keyed ↔ Unmixed (keyed.map Prod.fst) := by
  refine ⟨fun hsettled a ha b hb c hc hmixed => ?_, settled_of_unmixed⟩
  obtain ⟨high, hhigh, rfl⟩ := List.mem_map.mp ha
  obtain ⟨other, hother, rfl⟩ := List.mem_map.mp hb
  obtain ⟨low, hlow, rfl⟩ := List.mem_map.mp hc
  obtain ⟨blank, lower, upper, foreign, hparted, hlow, hhigh, hother⟩ := exists_parted hlow hhigh hother hmixed
  have hne {part : List (Value × Value)} {item : Value × Value} (hitem : item ∈ part) : byKey false part ≠ [] :=
    List.ne_nil_of_mem ((sorts_byKey false part).perm.mem_iff.mpr hitem)
  have hinOrder (part : List (Value × Value)) := (sorts_byKey false part).inOrder
  exact hparted.arranged.not_settled (hinOrder blank) (hinOrder lower) (hinOrder upper) (hinOrder foreign)
    (hne hlow) (hne hhigh) (hne hother) (settled_false_of_settled hsettled)

end GraphQuery.Sort

namespace GraphQuery.Plan

/-- **The order of keys settles what a sort gives unless keys mix kinds.** The order is the same from either side,
and it is transitive but for a third key that is of another kind than two others, of which the first is greater than
the last. A sort, upwards or downwards, gives a sorted form of the items that it is given, and this is the only one,
ties apart, exactly if no such three are among their keys. -/
theorem orderBy_settled_iff (source : Source) (vars : List (String × Value)) (row : Value) (items key : Plan)
    (descending : Bool) {list : List Value} (hitems : items.evalIn source vars row = .ok (.array list))
    {keyed : List (Value × Value)}
    (hkeyed : withKeys (fun item => key.evalIn source vars item) list = .ok keyed) :
    (∀ a b : Value, b.order a = (a.order b).swap) ∧
      (∀ a b c : Value, ((a.order b).isLE = true → (b.order c).isLE = true → (a.order c).isLE = true) ↔
        ¬Value.Mixed a b c) ∧
      (∃ sorted, Sort.Sorts descending keyed sorted ∧
        (orderBy items key descending).evalIn source vars row = .ok (.array (sorted.map Prod.snd))) ∧
      (Sort.Settled descending keyed ↔ Sort.Unmixed (keyed.map Prod.fst)) := by
  refine ⟨Value.order_swap, fun _ _ _ => Value.order_trans_iff,
    ⟨_, Sort.sorts_byKey descending keyed, ?_⟩, Sort.settled_iff⟩
  rw [evalIn]
  refine Outcome.bind_ok_iff.mpr ⟨_, hitems, ?_⟩
  rw [Value.mapSequence_array]
  exact Outcome.map_ok_iff.mpr ⟨_, Outcome.bind_ok_iff.mpr ⟨_, hkeyed, rfl⟩, rfl⟩

/-- Numbers of one value and a string between them are unmixed: the string counts as equal to either. -/
theorem sizes_settled :
    let size (key : Value) : Value := .object [("size", key)]
    let list : List Value := [size (.int 2), size .null, size (.string "two"),
      size (.number (.float ⟨false, 0x4000000000000000, by decide⟩))]
    let key : Plan := .member .row "size"
    let keyed := list.map fun item => ((item.get? "size").getD .null, item)
    ((Plan.const (.array list)).evalIn .inProcess [] .null = .ok (.array list) ∧
        withKeys (fun item => key.evalIn .inProcess [] item) list = .ok keyed) ∧
      Sort.Settled false keyed := by
  intro size list key keyed
  have hkeyed : withKeys (fun item => key.evalIn .inProcess [] item) list = .ok keyed := rfl
  obtain ⟨-, -, -, hsettled⟩ :=
    orderBy_settled_iff .inProcess [] .null (.const (.array list)) key false rfl hkeyed
  have hequal : ∀ a ∈ keyed.map Prod.fst, ∀ c ∈ keyed.map Prod.fst, a.comparable c = true → a.order c = .eq := by
    decide
  refine ⟨⟨rfl, hkeyed⟩, hsettled.mpr fun a ha b _ c hc hmixed => ?_⟩
  have hgreater := hmixed.greater
  rw [hequal a ha c hc hmixed.comparable] at hgreater
  cases hgreater

/-- A string between two numbers hides that these are the wrong way round: the order is not transitive, and a sort
leaves the lesser one behind. -/
theorem hidden_number_misplaced :
    let list : List Value := [.int 2, .string "a", .int 1]
    let sorted := orderBy (.const (.array list)) .row false
    (¬∀ a b c : Value, (a.order b).isLE = true → (b.order c).isLE = true → (a.order c).isLE = true) ∧
      sorted.evalIn .inProcess [] .null = .ok (.array list) ∧
      (filter sorted (.compare .lt .row (.const (.int 10)))).evalIn .inProcess [] .null =
        .ok (.array [.int 2, .int 1]) := by
  refine ⟨fun htrans => ?_, by rfl, by rfl⟩
  have hleast := htrans (.int 2) (.string "a") (.int 1) (by decide) (by decide)
  exact absurd hleast (by decide)

end GraphQuery.Plan
