import GraphQuery.Keyed
import Mathlib.Data.List.Forall2
import Mathlib.Data.List.Nodup
import Mathlib.Data.List.Pairwise

/-! The first items of their keys. Records bind the first selection of a key, responses show the first
one that applies, and merging keeps the place of the first of those that repeat each other: all three
pick, in order, the items whose key is not taken yet. -/

namespace GraphQuery

namespace Keyed

theorem mem_of_lookup {α β : Type} [BEq α] [LawfulBEq α] {entries : List (α × β)} {key : α} {value : β}
    (h : entries.lookup key = some value) : (key, value) ∈ entries := by
  obtain ⟨before, after, rfl, _⟩ := List.lookup_eq_some_iff.mp h
  exact List.mem_append_right _ List.mem_cons_self

/-- Entries with keys of their own are found under these. -/
theorem lookup_of_mem {β : Type} {entries : List (String × β)} (h : (entries.map Prod.fst).Nodup) {key : String}
    {value : β} (hmem : (key, value) ∈ entries) : entries.lookup key = some value := by
  induction entries with
  | nil => cases hmem
  | cons entry rest ih =>
      obtain ⟨name, other⟩ := entry
      obtain ⟨hnew, hrest⟩ := List.nodup_cons.mp h
      rw [lookup_entry]
      rcases List.mem_cons.mp hmem with heq | htail
      · cases heq
        rw [if_pos rfl]
      · have hne : key ≠ name := by
          rintro rfl
          exact hnew (List.mem_map.mpr ⟨(key, value), htail, rfl⟩)
        rw [if_neg hne]
        exact ih hrest htail

/-- A value under a new key goes to the end. -/
theorem put_of_notMem {β : Type} {key : String} (value : β) {entries : List (String × β)}
    (h : key ∉ entries.map Prod.fst) : put key value entries = entries ++ [(key, value)] := by
  induction entries with
  | nil => rfl
  | cons entry rest ih =>
      obtain ⟨name, old⟩ := entry
      rw [List.map_cons, List.mem_cons, not_or] at h
      rw [put, if_neg (Ne.symm h.1), ih h.2, List.cons_append]

variable {α β κ ι : Type} [DecidableEq κ] [DecidableEq ι]

/-- The first item of each key that is not taken; items without a key are left out. -/
def firsts (key? : α → Option κ) : (κ → Bool) → List α → List α
  | _, [] => []
  | taken, item :: rest =>
    match key? item with
    | none => firsts key? taken rest
    | some key =>
      if taken key then firsts key? taken rest
      else item :: firsts key? (fun other => decide (other = key) || taken other) rest

variable {key? : α → Option κ} {taken : κ → Bool} {items : List α}

theorem firsts_cons_none {item : α} {rest : List α} (h : key? item = none) :
    firsts key? taken (item :: rest) = firsts key? taken rest := by
  rw [firsts, h]

theorem firsts_cons_taken {item : α} {rest : List α} {key : κ} (h : key? item = some key)
    (htaken : taken key = true) : firsts key? taken (item :: rest) = firsts key? taken rest := by
  simp only [firsts, h, htaken, if_true]

theorem firsts_cons_new {item : α} {rest : List α} {key : κ} (h : key? item = some key)
    (hnew : taken key = false) : firsts key? taken (item :: rest) =
      item :: firsts key? (fun other => decide (other = key) || taken other) rest := by
  simp only [firsts, h, hnew, Bool.false_eq_true, if_false]

theorem mem_firsts {item : α} (h : item ∈ firsts key? taken items) :
    item ∈ items ∧ ∃ key, key? item = some key ∧ taken key = false := by
  induction items generalizing taken with
  | nil => cases h
  | cons head rest ih =>
      cases hkey : key? head with
      | none =>
          rw [firsts_cons_none hkey] at h
          exact (ih h).imp_left (List.mem_cons_of_mem _)
      | some key =>
          cases htaken : taken key with
          | true =>
              rw [firsts_cons_taken hkey htaken] at h
              exact (ih h).imp_left (List.mem_cons_of_mem _)
          | false =>
              rw [firsts_cons_new hkey htaken] at h
              rcases List.mem_cons.mp h with rfl | h
              · exact ⟨List.mem_cons_self, key, hkey, htaken⟩
              · obtain ⟨hmem, other, hother, hfree⟩ := ih h
                rw [Bool.or_eq_false_iff] at hfree
                exact ⟨List.mem_cons_of_mem _ hmem, other, hother, hfree.2⟩

/-- Every item with a key that is not taken has a first one of its key. -/
theorem exists_first {item : α} {key : κ} (hmem : item ∈ items) (hkey : key? item = some key)
    (hnew : taken key = false) : ∃ first ∈ firsts key? taken items, key? first = some key := by
  induction items generalizing taken with
  | nil => cases hmem
  | cons head rest ih =>
      cases hhead : key? head with
      | none =>
          rw [firsts_cons_none hhead]
          rcases List.mem_cons.mp hmem with rfl | hmem
          · rw [hhead] at hkey
            cases hkey
          · exact ih hmem hnew
      | some other =>
          cases htaken : taken other with
          | true =>
              rw [firsts_cons_taken hhead htaken]
              rcases List.mem_cons.mp hmem with rfl | hmem
              · rw [hhead, Option.some.injEq] at hkey
                rw [hkey, hnew] at htaken
                cases htaken
              · exact ih hmem hnew
          | false =>
              rw [firsts_cons_new hhead htaken]
              by_cases hsame : key = other
              · subst hsame
                exact ⟨head, List.mem_cons_self, hhead⟩
              · rcases List.mem_cons.mp hmem with rfl | hmem
                · rw [hhead, Option.some.injEq] at hkey
                  exact absurd hkey.symm hsame
                · have hfree : (decide (key = other) || taken key) = false := by
                    rw [hnew, Bool.or_false]
                    exact decide_eq_false hsame
                  obtain ⟨first, hfirst, hof⟩ :=
                    @ih (fun next => decide (next = other) || taken next) hmem hfree
                  exact ⟨first, List.mem_cons_of_mem _ hfirst, hof⟩

/-- The item that a search for a key finds is the first one of that key. -/
theorem mem_firsts_of_find? {test : α → Bool} {key : κ} {first : α} (hnew : taken key = false)
    (htest : ∀ item ∈ items, test item = true ↔ key? item = some key)
    (hfind : items.find? test = some first) : first ∈ firsts key? taken items := by
  induction items generalizing taken with
  | nil => cases hfind
  | cons head rest ih =>
      have hrest := fun item hmem => htest item (List.mem_cons_of_mem _ hmem)
      cases hhead : test head with
      | true =>
          rw [List.find?_cons_of_pos hhead, Option.some.injEq] at hfind
          rw [firsts_cons_new ((htest head List.mem_cons_self).mp hhead) hnew, hfind]
          exact List.mem_cons_self
      | false =>
          have hother : key? head ≠ some key := by
            intro hkey
            rw [(htest head List.mem_cons_self).mpr hkey] at hhead
            cases hhead
          rw [List.find?_cons_of_neg (by rw [hhead]; exact Bool.false_ne_true)] at hfind
          cases hkey : key? head with
          | none =>
              rw [firsts_cons_none hkey]
              exact ih hnew hrest hfind
          | some other =>
              cases htaken : taken other with
              | true =>
                  rw [firsts_cons_taken hkey htaken]
                  exact ih hnew hrest hfind
              | false =>
                  rw [firsts_cons_new hkey htaken]
                  refine List.mem_cons_of_mem _ (ih ?_ hrest hfind)
                  rw [hnew, Bool.or_false]
                  refine decide_eq_false ?_
                  rintro rfl
                  exact hother hkey

/-- Lists whose items correspond, with keys that correspond, have first items that correspond. -/
theorem firsts_related {relation : α → β → Prop} {pairs : κ → ι → Prop} (hpairs : Relator.BiUnique pairs)
    {other? : β → Option ι} (hkeys : ∀ a b, relation a b → Option.Rel pairs (key? a) (other? b))
    {others : List β} (h : List.Forall₂ relation items others) {taken' : ι → Bool}
    (htaken : ∀ key key', pairs key key' → taken' key' = taken key) :
    List.Forall₂ relation (firsts key? taken items) (firsts other? taken' others) := by
  induction h generalizing taken taken' with
  | nil => exact .nil
  | @cons item other _ _ hpair _ ih =>
      have hrel := hkeys item other hpair
      cases hkey : key? item with
      | none =>
          cases hother : other? other with
          | none =>
              rw [firsts_cons_none hkey, firsts_cons_none hother]
              exact ih htaken
          | some key' =>
              rw [hkey, hother] at hrel
              cases hrel
      | some key =>
          cases hother : other? other with
          | none =>
              rw [hkey, hother] at hrel
              cases hrel
          | some key' =>
              rw [hkey, hother] at hrel
              cases hrel with
              | some hrel =>
                  cases hnew : taken key with
                  | true =>
                      rw [firsts_cons_taken hkey hnew,
                        firsts_cons_taken hother ((htaken key key' hrel).trans hnew)]
                      exact ih htaken
                  | false =>
                      rw [firsts_cons_new hkey hnew,
                        firsts_cons_new hother ((htaken key key' hrel).trans hnew)]
                      refine .cons hpair (ih fun a a' ha => ?_)
                      rw [htaken a a' ha, decide_eq_decide.mpr (Relator.rel_eq hpairs ha hrel).symm]

omit [DecidableEq κ] [DecidableEq ι] in
/-- Keys and their new names determine each other where no two keys get one name. -/
theorem biUnique_graph {rename : κ → ι} (hrename : Function.Injective rename) :
    Relator.BiUnique fun key key' => rename key = key' :=
  ⟨fun _ _ _ h h' => hrename (h.trans h'.symm), fun _ _ _ h h' => h.symm.trans h'⟩

/-- Entries that correspond are found under keys that correspond. -/
theorem lookup_related {pairs : String → String → Prop} (hpairs : Relator.BiUnique pairs)
    {relation : String → String → α → β → Prop} {entries : List (String × α)} {others : List (String × β)}
    (h : List.Forall₂ (fun a b => pairs a.1 b.1 ∧ relation a.1 b.1 a.2 b.2) entries others)
    {key key' : String} (hkey : pairs key key') :
    Option.Rel (relation key key') (entries.lookup key) (others.lookup key') := by
  induction h with
  | nil => exact .none
  | @cons entry other _ _ hpair _ ih =>
      obtain ⟨name, value⟩ := entry
      obtain ⟨name', value'⟩ := other
      obtain ⟨hname, hvalue⟩ := hpair
      dsimp only at hname hvalue
      have hiff : key = name ↔ key' = name' := Relator.rel_eq hpairs hkey hname
      rw [lookup_entry, lookup_entry]
      by_cases hsame : key = name
      · rw [if_pos hsame, if_pos (hiff.mp hsame)]
        rw [← hsame, ← hiff.mp hsame] at hvalue
        exact .some hvalue
      · rw [if_neg hsame, if_neg fun hsame' => hsame (hiff.mpr hsame')]
        exact ih

/-- Items that correspond are found by tests that do. -/
theorem find?_related {relation : α → β → Prop} {test : α → Bool} {test' : β → Bool}
    (htest : ∀ a b, relation a b → test' b = test a) {others : List β}
    (h : List.Forall₂ relation items others) : Option.Rel relation (items.find? test) (others.find? test') := by
  induction h with
  | nil => exact .none
  | @cons item other _ _ hpair _ ih =>
      rw [List.find?_cons, List.find?_cons, htest item other hpair]
      cases test item with
      | true => exact .some hpair
      | false => exact ih

theorem firsts_apart : (firsts key? taken items).Pairwise fun a b => key? a ≠ key? b := by
  induction items generalizing taken with
  | nil => exact List.Pairwise.nil
  | cons head rest ih =>
      cases hhead : key? head with
      | none =>
          rw [firsts_cons_none hhead]
          exact ih
      | some key =>
          cases htaken : taken key with
          | true =>
              rw [firsts_cons_taken hhead htaken]
              exact ih
          | false =>
              rw [firsts_cons_new hhead htaken]
              refine List.Pairwise.cons ?_ ih
              intro item hmem hsame
              obtain ⟨_, other, hother, hfree⟩ := mem_firsts hmem
              rw [hhead, hother, Option.some.injEq] at hsame
              rw [← hsame, Bool.or_eq_false_iff] at hfree
              exact absurd rfl (of_decide_eq_false hfree.1)

/-- First items have keys of their own, whatever tells the keys of those that have one. -/
theorem firsts_nodup {name : α → κ} (hname : ∀ item key, key? item = some key → name item = key) :
    ((firsts key? taken items).map name).Nodup := by
  rw [List.nodup_iff_pairwise_ne, List.pairwise_map]
  refine firsts_apart.imp_of_mem fun {a b} ha hb hne hsame => hne ?_
  obtain ⟨_, key, hkey, _⟩ := mem_firsts ha
  obtain ⟨_, key', hkey', _⟩ := mem_firsts hb
  rw [hkey, hkey', ← hname a key hkey, ← hname b key' hkey', hsame]

theorem firsts_keys_nodup (fallback : κ) :
    ((firsts key? taken items).map fun item => (key? item).getD fallback).Nodup := by
  refine firsts_nodup fun item key hkey => ?_
  rw [hkey, Option.getD_some]

/-- A key has one first item. -/
theorem eq_of_mem_firsts {a b : α} (ha : a ∈ firsts key? taken items)
    (hb : b ∈ firsts key? taken items) (hsame : key? a = key? b) : a = b := by
  have hsymm : Std.Symm fun a b : α => key? a ≠ key? b := ⟨fun _ _ hne => hne.symm⟩
  by_contra hne
  exact firsts_apart.forall ha hb hne hsame

theorem firsts_congr {other? : α → Option κ} (h : ∀ item ∈ items, key? item = other? item) :
    firsts key? taken items = firsts other? taken items := by
  induction items generalizing taken with
  | nil => rfl
  | cons head rest ih =>
      have hrest (taken : κ → Bool) : firsts key? taken rest = firsts other? taken rest :=
        ih fun item hmem => h item (List.mem_cons_of_mem _ hmem)
      rw [firsts, firsts, h head List.mem_cons_self]
      simp only [hrest]

theorem firsts_map (change : β → α) (items : List β) :
    firsts key? taken (items.map change) =
      (firsts (fun item => key? (change item)) taken items).map change := by
  induction items generalizing taken with
  | nil => rfl
  | cons head rest ih =>
      rw [List.map_cons, firsts, firsts]
      split
      · exact ih
      · split
        · exact ih
        · rw [ih, List.map_cons]

theorem firsts_filter (test : α → Bool) (htest : ∀ item ∈ items, (key? item).isSome → test item) :
    firsts key? taken (items.filter test) = firsts key? taken items := by
  induction items generalizing taken with
  | nil => rfl
  | cons head rest ih =>
      have hrest (taken : κ → Bool) : firsts key? taken (rest.filter test) = firsts key? taken rest :=
        ih fun item hmem => htest item (List.mem_cons_of_mem _ hmem)
      cases hkey : key? head with
      | none =>
          rw [firsts_cons_none hkey, ← hrest]
          cases hpass : test head with
          | true => rw [List.filter_cons_of_pos hpass, firsts_cons_none hkey]
          | false => rw [List.filter_cons_of_neg (by rw [hpass]; decide)]
      | some key =>
          have hpass := htest head List.mem_cons_self (by rw [hkey]; rfl)
          rw [List.filter_cons_of_pos hpass, firsts, firsts, hkey]
          simp only [hrest]

/-- After some items, their keys are taken as well. -/
theorem firsts_append {more : κ → Bool} {others : List α}
    (hmore : ∀ key, more key = true ↔
      taken key = true ∨ ∃ item ∈ firsts key? taken items, key? item = some key) :
    firsts key? taken (items ++ others) = firsts key? taken items ++ firsts key? more others := by
  induction items generalizing taken with
  | nil =>
      have hsame : more = taken := by
        funext key
        rw [Bool.eq_iff_iff, hmore key]
        exact or_iff_left fun ⟨_, hmem, _⟩ => List.not_mem_nil hmem
      rw [hsame]
      rfl
  | cons head rest ih =>
      rw [List.cons_append]
      cases hkey : key? head with
      | none =>
          rw [firsts_cons_none hkey] at hmore ⊢
          rw [firsts_cons_none hkey, ih hmore]
      | some key =>
          cases htaken : taken key with
          | true =>
              rw [firsts_cons_taken hkey htaken] at hmore ⊢
              rw [firsts_cons_taken hkey htaken, ih hmore]
          | false =>
              rw [firsts_cons_new hkey htaken] at hmore ⊢
              rw [firsts_cons_new hkey htaken, ih, List.cons_append]
              intro other
              rw [hmore other, List.exists_mem_cons_iff, hkey, Option.some.injEq, Bool.or_eq_true,
                decide_eq_true_eq, or_left_comm, or_assoc, @eq_comm _ key]

/-- The first items of coarser keys are found among the first items of finer ones. -/
theorem firsts_firsts {coarse? : α → Option κ} {fine? : α → Option ι} {known : ι → Bool}
    (hfine : ∀ a b, fine? a = fine? b → fine? a ≠ none → coarse? a = coarse? b)
    (hnone : ∀ a, fine? a = none → coarse? a = none)
    (hknown : ∀ a ∈ items, ∀ mark, fine? a = some mark → known mark = true →
      ∀ key, coarse? a = some key → taken key = true) :
    firsts coarse? taken (firsts fine? known items) = firsts coarse? taken items := by
  induction items generalizing taken known with
  | nil => rfl
  | cons head rest ih =>
      have hrest : ∀ a ∈ rest, ∀ mark, fine? a = some mark → known mark = true →
          ∀ key, coarse? a = some key → taken key = true :=
        fun a hmem => hknown a (List.mem_cons_of_mem _ hmem)
      cases hmark : fine? head with
      | none => rw [firsts_cons_none hmark, firsts_cons_none (hnone head hmark), ih hrest]
      | some mark =>
          cases hseen : known mark with
          | true =>
              rw [firsts_cons_taken hmark hseen, ih hrest]
              cases hkey : coarse? head with
              | none => rw [firsts_cons_none hkey]
              | some key =>
                  rw [firsts_cons_taken hkey (hknown head List.mem_cons_self mark hmark hseen key hkey)]
          | false =>
              have hnext (more : κ → Bool) (hhead : ∀ key, coarse? head = some key → more key = true)
                  (hmore : ∀ key, taken key = true → more key = true) :
                  ∀ a ∈ rest, ∀ other, fine? a = some other →
                    (decide (other = mark) || known other) = true →
                    ∀ key, coarse? a = some key → more key = true := by
                intro a hmem other hother hseen' key hcoarse
                rcases Bool.or_eq_true_iff.mp hseen' with heq | hold
                · rw [of_decide_eq_true heq] at hother
                  have hsame := hfine a head (hother.trans hmark.symm)
                    (by rw [hother]; exact Option.some_ne_none mark)
                  exact hhead key (hsame.symm.trans hcoarse)
                · exact hmore key (hrest a hmem other hother hold key hcoarse)
              rw [firsts_cons_new hmark hseen]
              cases hkey : coarse? head with
              | none =>
                  rw [firsts_cons_none hkey, firsts_cons_none hkey]
                  refine ih (hnext taken ?_ fun _ h => h)
                  rintro key hsome
                  rw [hkey] at hsome
                  cases hsome
              | some key =>
                  have hhead (more : κ → Bool) (hmore : more key = true) :
                      ∀ other, coarse? head = some other → more other = true := by
                    intro other hother
                    rw [hkey, Option.some.injEq] at hother
                    exact hother ▸ hmore
                  cases htaken : taken key with
                  | true =>
                      rw [firsts_cons_taken hkey htaken, firsts_cons_taken hkey htaken]
                      exact ih (hnext taken (hhead taken htaken) fun _ h => h)
                  | false =>
                      rw [firsts_cons_new hkey htaken, firsts_cons_new hkey htaken]
                      refine congrArg (head :: ·) (ih (hnext _ (hhead _ ?_) fun other h => ?_))
                      · rw [decide_eq_true rfl, Bool.true_or]
                      · rw [h, Bool.or_true]

/-- Lists of the same first items are so also when other such lists follow. -/
theorem firsts_append_congr {items items' others others' : List α}
    (hitems : firsts key? (fun _ => false) items = firsts key? (fun _ => false) items')
    (hothers : firsts key? (fun _ => false) others = firsts key? (fun _ => false) others') :
    firsts key? (fun _ => false) (items ++ others) = firsts key? (fun _ => false) (items' ++ others') := by
  have hpart (items : List α) (others : List α) :
      firsts key? (fun _ => false) (items ++ others) = firsts key? (fun _ => false) items ++
        firsts key? (fun key => decide (∃ item ∈ firsts key? (fun _ => false) items, key? item = some key))
          (firsts key? (fun _ => false) others) := by
    rw [@firsts_firsts _ _ _ _ _ _ _ key? key? (fun _ => false) (fun _ _ hsame _ => hsame) (fun _ hnone => hnone)
      fun _ _ _ _ hknown => absurd hknown Bool.false_ne_true]
    refine firsts_append fun key => ?_
    simp only [decide_eq_true_eq, Bool.false_eq_true, false_or]
  rw [hpart, hpart, hitems, hothers]

/-- An item of a key that is there already is not the first of it. -/
theorem firsts_append_known {items : List α} {item : α} (hknown : ∃ other ∈ items, key? other = key? item) :
    firsts key? (fun _ => false) (items ++ [item]) = firsts key? (fun _ => false) items := by
  have happend := @firsts_append _ _ _ key? (fun _ => false) items
    (fun key => decide (∃ item ∈ firsts key? (fun _ => false) items, key? item = some key)) [item]
    fun key => by simp only [decide_eq_true_eq, Bool.false_eq_true, false_or]
  rw [happend]
  obtain ⟨other, hother, hsame⟩ := hknown
  cases hkey : key? item with
  | none => rw [firsts_cons_none hkey, firsts, List.append_nil]
  | some key =>
      obtain ⟨first, hfirst, hof⟩ := @exists_first _ _ _ key? (fun _ => false) _ _ _ hother (hsame.trans hkey) rfl
      rw [firsts_cons_taken hkey (decide_eq_true ⟨first, hfirst, hof⟩), firsts, List.append_nil]

/-- Items whose keys are all different are all the first of their key. -/
theorem firsts_of_nodup {name : α → κ} {items : List α} (h : (items.map name).Nodup) {taken : κ → Bool}
    (hnew : ∀ item ∈ items, taken (name item) = false) :
    firsts (fun item => some (name item)) taken items = items := by
  induction items generalizing taken with
  | nil => rfl
  | cons head rest ih =>
      obtain ⟨hapart, hrest⟩ := List.nodup_cons.mp h
      rw [@firsts_cons_new _ _ _ (fun item => some (name item)) _ _ _ _ rfl (hnew head List.mem_cons_self), ih hrest]
      intro item hmem
      rw [hnew item (List.mem_cons_of_mem _ hmem), Bool.or_false]
      refine decide_eq_false fun hsame => hapart ?_
      rw [← hsame]
      exact List.mem_map_of_mem hmem

end Keyed

end GraphQuery
