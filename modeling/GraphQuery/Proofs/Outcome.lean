import GraphQuery.Query.Trace
import Mathlib.Data.List.Forall2
import Mathlib.Data.List.Induction

/-! Chains of steps that may fail. A chain succeeds when each of its steps does; it fails with the error
of the first one that does not. Computations that record calls obey the laws of monads, and each is
its outcome together with its calls. -/

namespace GraphQuery.Outcome

variable {ε α β κ σ : Type}

theorem bind_ok_iff {first : Except ε α} {next : α → Except ε β} {result : β} :
    (first >>= next) = .ok result ↔ ∃ value, first = .ok value ∧ next value = .ok result := by
  cases first with
  | error error =>
      constructor
      · intro h
        cases h
      · rintro ⟨_, h, _⟩
        cases h
  | ok value =>
      constructor
      · intro h
        exact ⟨value, rfl, h⟩
      · rintro ⟨_, h, hnext⟩
        cases h
        exact hnext

theorem bind_error_iff {first : Except ε α} {next : α → Except ε β} {error : ε} :
    (first >>= next) = .error error ↔
      first = .error error ∨ ∃ value, first = .ok value ∧ next value = .error error := by
  cases first with
  | error other =>
      constructor
      · intro h
        cases h
        exact Or.inl rfl
      · rintro (h | ⟨_, h, _⟩)
        · cases h
          rfl
        · cases h
  | ok value =>
      constructor
      · intro h
        exact Or.inr ⟨value, rfl, h⟩
      · rintro (h | ⟨_, h, hnext⟩)
        · cases h
        · cases h
          exact hnext

theorem map_ok_iff {first : Except ε α} {change : α → β} {result : β} :
    first.map change = .ok result ↔ ∃ value, first = .ok value ∧ change value = result := by
  cases first with
  | error error => simp [Except.map]
  | ok value => simp [Except.map]

theorem map_error_iff {first : Except ε α} {change : α → β} {error : ε} :
    first.map change = .error error ↔ first = .error error := by
  cases first with
  | error cause => simp [Except.map]
  | ok value => simp [Except.map]

theorem mapError_ok_iff {first : Except ε α} {change : ε → σ} {result : α} :
    first.mapError change = .ok result ↔ first = .ok result := by
  cases first with
  | error error => simp [Except.mapError]
  | ok value => simp [Except.mapError]

theorem mapError_error_iff {first : Except ε α} {change : ε → σ} {error : σ} :
    first.mapError change = .error error ↔ ∃ cause, first = .error cause ∧ change cause = error := by
  cases first with
  | error cause => simp [Except.mapError]
  | ok value => simp [Except.mapError]

theorem map_bind {first : Except ε α} {next : α → Except ε β} {change : β → σ} :
    (first >>= next).map change = first >>= fun value => (next value).map change := by
  cases first <;> rfl

theorem bind_eq_of_ok {first : Except ε α} {next other : α → Except ε β}
    (h : ∀ value, first = .ok value → next value = other value) : first >>= next = first >>= other := by
  cases first with
  | error error => rfl
  | ok value => exact h value rfl

/-- Two ways to go on from one outcome come to the same exactly if they do for its value. -/
theorem bind_eq_bind_iff {first : Except ε α} {next other : α → Except ε β} :
    first >>= next = first >>= other ↔ ∀ value, first = .ok value → next value = other value := by
  refine ⟨fun h value hvalue => ?_, bind_eq_of_ok⟩
  subst hvalue
  exact h

theorem exists_of_isOk {outcome : Except ε α} (h : outcome.isOk = true) :
    ∃ value, outcome = .ok value := by
  cases outcome with
  | error error => cases h
  | ok value => exact ⟨value, rfl⟩

theorem ok_of_toOption {outcome : Except ε α} {value : α} (h : outcome.toOption = some value) :
    outcome = .ok value := by
  cases outcome with
  | error error => cases h
  | ok other =>
      cases h
      rfl

theorem forM_ok {step : α → Except ε Unit} {items : List α} (h : ∀ item ∈ items, step item = .ok ()) :
    items.forM step = .ok () := by
  induction items with
  | nil => rfl
  | cons item rest ih =>
      obtain ⟨hitem, hrest⟩ := List.forall_mem_cons.mp h
      exact bind_ok_iff.mpr ⟨_, hitem, ih hrest⟩

theorem ok_of_forM {step : α → Except ε Unit} {items : List α} (h : items.forM step = .ok ()) :
    ∀ item ∈ items, step item = .ok () := by
  induction items with
  | nil => exact fun _ hmem => absurd hmem List.not_mem_nil
  | cons item rest ih =>
      obtain ⟨_, hitem, hrest⟩ := bind_ok_iff.mp h
      exact List.forall_mem_cons.mpr ⟨hitem, ih hrest⟩

theorem error_of_forM {step : α → Except ε Unit} {items : List α} {error : ε}
    (h : items.forM step = .error error) : ∃ item ∈ items, step item = .error error := by
  induction items with
  | nil => cases h
  | cons item rest ih =>
      rcases bind_error_iff.mp h with hitem | ⟨_, _, hrest⟩
      · exact ⟨item, List.mem_cons_self, hitem⟩
      · obtain ⟨other, hmem, hother⟩ := ih hrest
        exact ⟨other, List.mem_cons_of_mem _ hmem, hother⟩

/-- What every step of a fold preserves holds at its end. -/
theorem foldlM_preserves {step : σ → α → Except ε σ} (holds : σ → Prop) {items : List α}
    {start result : σ}
    (hstep : ∀ item ∈ items, ∀ state next, holds state → step state item = .ok next → holds next)
    (hstart : holds start) (hfold : items.foldlM step start = .ok result) : holds result := by
  induction items generalizing start with
  | nil =>
      cases hfold
      exact hstart
  | cons item rest ih =>
      rw [List.foldlM_cons, bind_ok_iff] at hfold
      obtain ⟨next, hnext, hrest⟩ := hfold
      exact ih (fun other hmem => hstep other (List.mem_cons_of_mem _ hmem))
        (hstep item List.mem_cons_self start next hstart hnext) hrest

/-- What the steps of a fold keep along with the items that they have gone through holds of all items at
its end. -/
theorem foldlM_records {step : σ → α → Except ε σ} (holds : List α → σ → Prop) {items : List α}
    {start result : σ}
    (hstep : ∀ before item state next, holds before state → step state item = .ok next →
      holds (before ++ [item]) next)
    (hstart : holds [] start) (hfold : items.foldlM step start = .ok result) : holds items result := by
  induction items using List.reverseRecOn generalizing result with
  | nil =>
      cases hfold
      exact hstart
  | append_singleton before item ih =>
      rw [List.foldlM_append, bind_ok_iff] at hfold
      obtain ⟨state, hbefore, hitem⟩ := hfold
      rw [List.foldlM_cons, bind_ok_iff] at hitem
      obtain ⟨next, hnext, hpure⟩ := hitem
      cases hpure
      exact hstep before item state _ (ih hbefore) hnext

theorem mapM_ok_iff {step : α → Except ε β} {items : List α} {results : List β} :
    items.mapM step = .ok results ↔
      List.Forall₂ (fun item result => step item = .ok result) items results := by
  induction items generalizing results with
  | nil =>
      rw [List.mapM_nil, List.forall₂_nil_left_iff]
      constructor
      · intro h
        cases h
        rfl
      · intro h
        rw [h]
        rfl
  | cons item rest ih =>
      rw [List.mapM_cons, bind_ok_iff]
      constructor
      · rintro ⟨result, hresult, htail⟩
        obtain ⟨others, hothers, hpure⟩ := bind_ok_iff.mp htail
        cases hpure
        exact List.Forall₂.cons hresult (ih.mp hothers)
      · intro h
        cases h with
        | cons hresult hothers =>
            exact ⟨_, hresult, bind_ok_iff.mpr ⟨_, ih.mpr hothers, rfl⟩⟩

theorem mapM_congr {step other : α → Except ε β} {items : List α}
    (h : ∀ item ∈ items, step item = other item) : items.mapM step = items.mapM other := by
  induction items with
  | nil => rfl
  | cons item rest ih =>
      rw [List.mapM_cons, List.mapM_cons, h item List.mem_cons_self,
        ih fun item hmem => h item (List.mem_cons_of_mem _ hmem)]

/-- Two maps with the same results agree on items at the same places. -/
theorem step_eq_of_mapM {α' : Type} {relation : α → α' → Prop} {step : α → Except ε β}
    {other : α' → Except ε β} {items : List α} {others : List α'} {results : List β}
    (hpairs : List.Forall₂ relation items others) (h : items.mapM step = .ok results)
    (h' : others.mapM other = .ok results) :
    List.Forall₂ (fun a b => relation a b ∧ step a = other b) items others := by
  rw [mapM_ok_iff] at h h'
  induction hpairs generalizing results with
  | nil => exact List.Forall₂.nil
  | cons hpair _ ih =>
      cases h with
      | cons hresult hrest =>
          cases h' with
          | cons hresult' hrest' =>
              exact List.Forall₂.cons ⟨hpair, hresult.trans hresult'.symm⟩ (ih hrest hrest')

theorem mapM_eq_of_pairs {α' : Type} {step : α → Except ε β} {other : α' → Except ε β} {items : List α}
    {others : List α'} (h : List.Forall₂ (fun a b => step a = other b) items others) :
    items.mapM step = others.mapM other := by
  induction h with
  | nil => rfl
  | cons hpair _ ih => rw [List.mapM_cons, List.mapM_cons, hpair, ih]

/-- The results of two maps over the same items are related where the results of each item are. -/
theorem results_related {γ : Type} {step : α → Except ε β} {other : α → Except ε γ}
    {relation : β → γ → Prop}
    (hstep : ∀ item first second, step item = .ok first → other item = .ok second →
      relation first second) {items : List α} {firsts : List β} {seconds : List γ}
    (hfirsts : items.mapM step = .ok firsts) (hseconds : items.mapM other = .ok seconds) :
    List.Forall₂ relation firsts seconds := by
  rw [mapM_ok_iff] at hfirsts hseconds
  induction hfirsts generalizing seconds with
  | nil =>
      cases hseconds
      exact List.Forall₂.nil
  | cons hfirst _ ih =>
      cases hseconds with
      | cons hsecond hrest => exact List.Forall₂.cons (hstep _ _ _ hfirst hsecond) (ih hrest)

theorem mapM_ok_of {step : α → Except ε β} {items : List α} {result : α → β}
    (h : ∀ item ∈ items, step item = .ok (result item)) :
    items.mapM step = .ok (items.map result) := by
  rw [mapM_ok_iff, List.forall₂_map_right_iff, List.forall₂_same]
  exact h

theorem ok_of_mapM {step : α → Except ε β} {items : List α} {results : List β}
    (h : items.mapM step = .ok results) {item : α} (hitem : item ∈ items) :
    ∃ result ∈ results, step item = .ok result := by
  obtain ⟨i, hget⟩ := List.mem_iff_getElem?.mp hitem
  obtain ⟨hlength, hall⟩ := List.forall₂_iff_get.mp (mapM_ok_iff.mp h)
  obtain ⟨hlt, rfl⟩ := List.getElem?_eq_some_iff.mp hget
  exact ⟨_, List.get_mem _ _, hall i hlt (hlength ▸ hlt)⟩

/-- A map fails with the error of one of its items. -/
theorem error_of_mapM {step : α → Except ε β} {items : List α} {error : ε}
    (h : items.mapM step = .error error) : ∃ item ∈ items, step item = .error error := by
  induction items with
  | nil => cases h
  | cons item rest ih =>
      rw [List.mapM_cons, bind_error_iff] at h
      rcases h with hitem | ⟨_, _, hrest⟩
      · exact ⟨item, List.mem_cons_self, hitem⟩
      · rcases bind_error_iff.mp hrest with hrest | ⟨_, _, hpure⟩
        · obtain ⟨other, hmem, hother⟩ := ih hrest
          exact ⟨other, List.mem_cons_of_mem _ hmem, hother⟩
        · cases hpure

theorem exists_mapM {step : α → Except ε β} {items : List α}
    (h : ∀ item ∈ items, ∃ result, step item = .ok result) : ∃ results, items.mapM step = .ok results := by
  cases hmap : items.mapM step with
  | ok results => exact ⟨results, rfl⟩
  | error error =>
      obtain ⟨item, hmem, herror⟩ := error_of_mapM hmap
      obtain ⟨result, hresult⟩ := h item hmem
      rw [hresult] at herror
      cases herror

/-- A map fails with the error of the first item that fails. -/
theorem mapM_error_of {step : α → Except ε β} {before after : List α} {item : α} {error : ε}
    (hbefore : ∀ earlier ∈ before, ∃ result, step earlier = .ok result) (herror : step item = .error error) :
    (before ++ item :: after).mapM step = .error error := by
  induction before with
  | nil =>
      rw [List.nil_append, List.mapM_cons, bind_error_iff]
      exact Or.inl herror
  | cons first rest ih =>
      obtain ⟨⟨result, hresult⟩, hrest⟩ := List.forall_mem_cons.mp hbefore
      rw [List.cons_append, List.mapM_cons, bind_error_iff]
      exact Or.inr ⟨result, hresult, bind_error_iff.mpr (Or.inl (ih hrest))⟩

theorem foldlM_congr {step other : σ → α → Except ε σ} {items : List α} {start : σ}
    (h : ∀ item ∈ items, ∀ state, step state item = other state item) :
    items.foldlM step start = items.foldlM other start := by
  induction items generalizing start with
  | nil => rfl
  | cons item rest ih =>
      rw [List.foldlM_cons, List.foldlM_cons, h item List.mem_cons_self]
      exact congrArg _ (funext fun _ => ih fun other hmem => h other (List.mem_cons_of_mem _ hmem))

/-- Folds end in the same state when their steps do; where they fail, their errors may differ. -/
theorem foldlM_ok_congr {step other : σ → α → Except ε σ} {items : List α} {start result : σ}
    (h : ∀ item ∈ items, ∀ state next, step state item = .ok next ↔ other state item = .ok next) :
    items.foldlM step start = .ok result ↔ items.foldlM other start = .ok result := by
  induction items generalizing start with
  | nil => exact Iff.rfl
  | cons item rest ih =>
      rw [List.foldlM_cons, List.foldlM_cons, bind_ok_iff, bind_ok_iff]
      exact exists_congr fun next => and_congr (h item List.mem_cons_self start next)
        (ih fun other hmem => h other (List.mem_cons_of_mem _ hmem))

/-- A fold that ends has taken a step with each item. -/
theorem ok_of_foldlM {step : σ → α → Except ε σ} {items : List α} {start result : σ}
    (h : items.foldlM step start = .ok result) :
    ∀ item ∈ items, ∃ state next, step state item = .ok next := by
  induction items generalizing start with
  | nil => exact fun _ hmem => absurd hmem List.not_mem_nil
  | cons item rest ih =>
      rw [List.foldlM_cons, bind_ok_iff] at h
      obtain ⟨next, hnext, hrest⟩ := h
      exact List.forall_mem_cons.mpr ⟨⟨start, next, hnext⟩, ih hrest⟩

/-- A fold fails with the error of one of its steps. -/
theorem error_of_foldlM {step : σ → α → Except ε σ} {items : List α} {start : σ} {error : ε}
    (h : items.foldlM step start = .error error) : ∃ state, ∃ item ∈ items, step state item = .error error := by
  induction items generalizing start with
  | nil => cases h
  | cons item rest ih =>
      rw [List.foldlM_cons, bind_error_iff] at h
      rcases h with hitem | ⟨_, _, hrest⟩
      · exact ⟨start, item, List.mem_cons_self, hitem⟩
      · obtain ⟨state, other, hmem, hother⟩ := ih hrest
        exact ⟨state, other, List.mem_cons_of_mem _ hmem, hother⟩

theorem mem_of_mapM {step : α → Except ε β} {items : List α} {results : List β}
    (h : items.mapM step = .ok results) {result : β} :
    result ∈ results ↔ ∃ item ∈ items, step item = .ok result := by
  rw [mapM_ok_iff] at h
  induction h with
  | nil => simp only [List.not_mem_nil, false_and, exists_false]
  | cons hhead _ ih =>
      rw [List.mem_cons, ih, List.exists_mem_cons_iff, hhead, Except.ok.injEq, eq_comm]

/-- Relations between items at the same places compose. -/
theorem forall₂_comp {γ : Type} {first : α → β → Prop} {second : β → γ → Prop} {items : List α}
    {middles : List β} {results : List γ} (hfirst : List.Forall₂ first items middles)
    (hsecond : List.Forall₂ second middles results) :
    List.Forall₂ (fun item result => ∃ middle, first item middle ∧ second middle result) items
      results := by
  induction hfirst generalizing results with
  | nil =>
      cases hsecond
      exact .nil
  | cons hpair _ ih =>
      cases hsecond with
      | cons hnext hrest => exact .cons ⟨_, hpair, hnext⟩ (ih hrest)

/-- Where relations compose, something stands between the items at each place. -/
theorem exists_between {γ : Type} {first : α → β → Prop} {second : β → γ → Prop} {items : List α}
    {results : List γ}
    (h : List.Forall₂ (fun item result => ∃ middle, first item middle ∧ second middle result) items results) :
    ∃ middles, List.Forall₂ first items middles ∧ List.Forall₂ second middles results := by
  induction h with
  | nil => exact ⟨[], .nil, .nil⟩
  | cons hpair _ ih =>
      obtain ⟨middle, hfirst, hsecond⟩ := hpair
      obtain ⟨middles, hfirsts, hseconds⟩ := ih
      exact ⟨middle :: middles, .cons hfirst hfirsts, .cons hsecond hseconds⟩

/-- The items of a successful map and its results stand at the same places. -/
theorem step_of_mapM {step : α → Except ε β} {items : List α} {results : List β}
    (h : items.mapM step = .ok results) {i : Nat} {item : α} {result : β} (hitem : items[i]? = some item)
    (hresult : results[i]? = some result) : step item = .ok result := by
  obtain ⟨_, hget⟩ := List.forall₂_iff_get.mp (mapM_ok_iff.mp h)
  obtain ⟨hlt, rfl⟩ := List.getElem?_eq_some_iff.mp hitem
  obtain ⟨hlt', rfl⟩ := List.getElem?_eq_some_iff.mp hresult
  exact hget i hlt hlt'

theorem result_of_mapM {step : α → Except ε β} {items : List α} {results : List β}
    (h : items.mapM step = .ok results) {i : Nat} {item : α} (hitem : items[i]? = some item) :
    ∃ result, results[i]? = some result ∧ step item = .ok result := by
  obtain ⟨hlength, hget⟩ := List.forall₂_iff_get.mp (mapM_ok_iff.mp h)
  obtain ⟨hlt, rfl⟩ := List.getElem?_eq_some_iff.mp hitem
  exact ⟨_, List.getElem?_eq_getElem (hlength ▸ hlt), hget i hlt (hlength ▸ hlt)⟩

theorem length_of_mapM {step : α → Except ε β} {items : List α} {results : List β}
    (h : items.mapM step = .ok results) : results.length = items.length :=
  (mapM_ok_iff.mp h).length_eq.symm

theorem map_pair_inj {name : κ} {first second : Except ε α}
    (h : first.map (name, ·) = second.map (name, ·)) : first = second := by
  cases first with
  | error error =>
      cases second with
      | error other =>
          cases h
          rfl
      | ok value => cases h
  | ok value =>
      cases second with
      | error error => cases h
      | ok other =>
          cases h
          rfl

theorem names_of_mapM {name : α → κ} {step : α → Except ε β} {items : List α} {results : List (κ × β)}
    (h : (items.mapM fun item => (step item).map (name item, ·)) = .ok results) :
    results.map Prod.fst = items.map name := by
  rw [mapM_ok_iff] at h
  induction h with
  | nil => rfl
  | cons hresult _ ih =>
      obtain ⟨value, _, rfl⟩ := map_ok_iff.mp hresult
      rw [List.map_cons, List.map_cons, ih]

/-- Two outcomes are the same failure, or related results. -/
inductive Agree (relation : α → β → Prop) : Except ε α → Except ε β → Prop where
  | error (error : ε) : Agree relation (.error error) (.error error)
  | ok {first : α} {second : β} (related : relation first second) :
      Agree relation (.ok first) (.ok second)

namespace Agree

variable {relation : α → β → Prop}

theorem refl (outcome : Except ε α) : Agree Eq outcome outcome := by
  cases outcome with
  | error error => exact .error error
  | ok value => exact .ok rfl

/-- Relations may change along with what is known of the results of the two outcomes. -/
theorem mono_of_ok {other : α → β → Prop} {first : Except ε α} {second : Except ε β}
    (h : Agree relation first second)
    (himp : ∀ a b, first = .ok a → second = .ok b → relation a b → other a b) : Agree other first second := by
  cases h with
  | error error => exact .error error
  | ok hrelated => exact .ok (himp _ _ rfl rfl hrelated)

theorem mono {other : α → β → Prop} {first : Except ε α} {second : Except ε β}
    (h : Agree relation first second) (himp : ∀ a b, relation a b → other a b) :
    Agree other first second :=
  h.mono_of_ok fun a b _ _ => himp a b

theorem exists_of_ok {first : Except ε α} {second : Except ε β} (h : Agree relation first second) {value : α}
    (hfirst : first = .ok value) : ∃ other, second = .ok other ∧ relation value other := by
  cases h with
  | error error => cases hfirst
  | ok hrelated =>
      cases hfirst
      exact ⟨_, rfl, hrelated⟩

theorem bind {γ δ : Type} {relation' : γ → δ → Prop} {first : Except ε α} {second : Except ε β}
    {next : α → Except ε γ} {next' : β → Except ε δ} (h : Agree relation first second)
    (hnext : ∀ a b, relation a b → Agree relation' (next a) (next' b)) :
    Agree relation' (first >>= next) (second >>= next') := by
  cases h with
  | error error => exact .error error
  | ok hrelated => exact hnext _ _ hrelated

theorem map {γ δ : Type} {relation' : γ → δ → Prop} {first : Except ε α} {second : Except ε β}
    {change : α → γ} {change' : β → δ} (h : Agree relation first second)
    (hchange : ∀ a b, relation a b → relation' (change a) (change' b)) :
    Agree relation' (first.map change) (second.map change') := by
  cases h with
  | error error => exact .error error
  | ok hrelated => exact .ok (hchange _ _ hrelated)

theorem mapError {first : Except ε α} {second : Except ε β} (h : Agree relation first second)
    (change : ε → σ) : Agree relation (first.mapError change) (second.mapError change) := by
  cases h with
  | error error => exact .error (change error)
  | ok hrelated => exact .ok hrelated

theorem foldlM {step : α → κ → Except ε α} {other : β → κ → Except ε β} {items : List κ} {start : α}
    {start' : β}
    (hstep : ∀ item ∈ items, ∀ a b, relation a b → Agree relation (step a item) (other b item))
    (hstart : relation start start') : Agree relation (items.foldlM step start) (items.foldlM other start') := by
  induction items generalizing start start' with
  | nil => exact .ok hstart
  | cons item rest ih =>
      rw [List.foldlM_cons, List.foldlM_cons]
      exact (hstep item List.mem_cons_self _ _ hstart).bind fun _ _ hnext =>
        ih (fun other hmem => hstep other (List.mem_cons_of_mem _ hmem)) hnext

theorem mapM {step : κ → Except ε α} {other : κ → Except ε β}
    (hstep : ∀ item, Agree relation (step item) (other item)) (items : List κ) :
    Agree (List.Forall₂ relation) (items.mapM step) (items.mapM other) := by
  induction items with
  | nil => exact .ok .nil
  | cons item rest ih =>
      rw [List.mapM_cons, List.mapM_cons]
      exact (hstep item).bind fun _ _ hfirst => ih.bind fun _ _ hrest => .ok (.cons hfirst hrest)

end Agree

/-! ### Steps on a state -/

theorem run_bind (first : ExceptT ε (StateM σ) α) (next : α → ExceptT ε (StateM σ) β) (state : σ) :
    (first >>= next).run state = match first.run state with
      | (.ok value, after) => (next value).run after
      | (.error error, after) => (.error error, after) := by
  unfold ExceptT.run
  simp only [bind, ExceptT.bind, ExceptT.mk, StateT.bind, ExceptT.bindCont]
  cases first state with
  | mk outcome after => cases outcome <;> rfl

theorem run_bind_ok {first : ExceptT ε (StateM σ) α} {next : α → ExceptT ε (StateM σ) β} {state after : σ}
    {value : β} (h : (first >>= next).run state = (.ok value, after)) :
    ∃ found between, first.run state = (.ok found, between) ∧ (next found).run between = (.ok value, after) := by
  rw [run_bind] at h
  split at h
  · next found between hfirst => exact ⟨found, between, hfirst, h⟩
  · cases h

@[simp] theorem run_pure (value : α) (state : σ) :
    (pure value : ExceptT ε (StateM σ) α).run state = (.ok value, state) := rfl

@[simp] theorem run_throw (error : ε) (state : σ) :
    (throw error : ExceptT ε (StateM σ) α).run state = (.error error, state) := rfl

@[simp] theorem run_get (state : σ) :
    (get : ExceptT ε (StateM σ) σ).run state = (.ok state, state) := rfl

@[simp] theorem run_modify (change : σ → σ) (state : σ) :
    (modify change : ExceptT ε (StateM σ) PUnit).run state = (.ok ⟨⟩, change state) := rfl

@[simp] theorem run_lift (outcome : Except ε α) (state : σ) :
    (liftM outcome : ExceptT ε (StateM σ) α).run state = (outcome, state) := rfl

theorem run_bind_error {first : ExceptT ε (StateM σ) α} {next : α → ExceptT ε (StateM σ) β} {state : σ}
    {error : ε} (h : (first.run state).1 = .error error) :
    ((first >>= next).run state).1 = .error error := by
  rw [run_bind]
  cases hrun : first.run state with
  | mk outcome after =>
      rw [hrun] at h
      cases h
      rfl

/-- What is left by a step that cannot fail half-way: the state of its result, or the one before it. -/
def settle (state : σ) : Except ε (α × σ) → Except ε α × σ
  | .ok (result, after) => (.ok result, after)
  | .error error => (.error error, state)

theorem run_guard {condition : Prop} [Decidable condition] {error : ε} {next : ExceptT ε (StateM σ) α}
    {state : σ} {outcome : Except ε (α × σ)} (h : ¬condition → next.run state = settle state outcome) :
    (if condition then throw error else next).run state =
      settle state (if condition then .error error else outcome) := by
  by_cases hcondition : condition
  · rw [if_pos hcondition, if_pos hcondition]
    rfl
  · rw [if_neg hcondition, if_neg hcondition]
    exact h hcondition

theorem run_check {first : ExceptT ε (StateM σ) α} {next : α → ExceptT ε (StateM σ) β} {state : σ}
    {check : Except ε α} {outcome : α → Except ε (β × σ)} (hfirst : first.run state = (check, state))
    (hnext : ∀ value, check = .ok value → (next value).run state = settle state (outcome value)) :
    (first >>= next).run state = settle state (check >>= outcome) := by
  rw [run_bind, hfirst]
  cases check with
  | error error => rfl
  | ok value => exact hnext value rfl

/-- What an outcome says of its result or of its error. -/
def Meets (post : α → Prop) (fails : ε → Prop) : Except ε α → Prop
  | .ok result => post result
  | .error error => fails error

/-- A step keeps what holds of states, and says something of its result or of its error. -/
def Ensures (holds : σ → Prop) (post : α → Prop) (fails : ε → Prop)
    (step : ExceptT ε (StateM σ) α) : Prop :=
  ∀ state, holds state → holds (step.run state).2 ∧ Meets post fails (step.run state).1

namespace Ensures

variable {holds : σ → Prop} {post : α → Prop} {fails : ε → Prop}

theorem pure {result : α} (hpost : post result) : Ensures holds post fails (Pure.pure result) :=
  fun _ hstate => ⟨hstate, hpost⟩

theorem mono {post' : α → Prop} {step : ExceptT ε (StateM σ) α} (h : Ensures holds post fails step)
    (hpost : ∀ value, post value → post' value) : Ensures holds post' fails step := by
  intro state hstate
  obtain ⟨hkept, hmeets⟩ := h state hstate
  refine ⟨hkept, ?_⟩
  cases hrun : (step.run state).1 with
  | ok value =>
      rw [hrun] at hmeets
      exact hpost value hmeets
  | error error =>
      rw [hrun] at hmeets
      exact hmeets

theorem bind {post' : β → Prop} {first : ExceptT ε (StateM σ) α} {next : α → ExceptT ε (StateM σ) β}
    (hfirst : Ensures holds post fails first)
    (hnext : ∀ value, post value → Ensures holds post' fails (next value)) :
    Ensures holds post' fails (first >>= next) := by
  intro state hstate
  obtain ⟨hkept, hmeets⟩ := hfirst state hstate
  rw [run_bind]
  cases hrun : first.run state with
  | mk outcome after =>
      rw [hrun] at hkept hmeets
      cases outcome with
      | ok value => exact hnext value hmeets after hkept
      | error error => exact ⟨hkept, hmeets⟩

theorem forM {step : α → ExceptT ε (StateM σ) PUnit} {items : List α}
    (hstep : ∀ item ∈ items, Ensures holds (fun _ => True) fails (step item)) :
    Ensures holds (fun _ => True) fails (items.forM step) := by
  induction items with
  | nil => exact pure trivial
  | cons item rest ih =>
      exact bind (hstep item List.mem_cons_self)
        fun _ _ => ih fun other hmem => hstep other (List.mem_cons_of_mem _ hmem)

/-- Each result of a sequence of steps satisfies the condition of some item. -/
theorem mapM {step : α → ExceptT ε (StateM σ) β} {relation : α → β → Prop} {items : List α}
    (hstep : ∀ item ∈ items, Ensures holds (relation item) fails (step item)) :
    Ensures holds (fun results => ∀ result ∈ results, ∃ item ∈ items, relation item result) fails
      (items.mapM step) := by
  induction items with
  | nil =>
      refine pure ?_
      intro result hmem
      cases hmem
  | cons item rest ih =>
      rw [List.mapM_cons]
      refine bind (hstep item List.mem_cons_self) fun result hresult => ?_
      refine bind (ih fun other hmem => hstep other (List.mem_cons_of_mem _ hmem)) fun others hothers => ?_
      refine pure ?_
      intro found hmem
      rcases List.mem_cons.mp hmem with rfl | hmem
      · exact ⟨item, List.mem_cons_self, hresult⟩
      · obtain ⟨origin, horigin, hrelation⟩ := hothers found hmem
        exact ⟨origin, List.mem_cons_of_mem _ horigin, hrelation⟩

end Ensures

/-- What each of some steps brings about, and none of them undoes, holds in the end. -/
theorem each_of_forM {step : α → ExceptT ε (StateM σ) PUnit} {items : List α} {mark : α → σ → Prop}
    {state after : σ}
    (hmark : ∀ item ∈ items, ∀ before next, (step item).run before = (.ok ⟨⟩, next) → mark item next)
    (hkept : ∀ item ∈ items, ∀ other ∈ items,
      Ensures (mark item) (fun _ => True) (fun _ => True) (step other))
    (h : (items.forM step).run state = (.ok ⟨⟩, after)) : ∀ item ∈ items, mark item after := by
  induction items generalizing state with
  | nil => exact fun _ hmem => absurd hmem List.not_mem_nil
  | cons item rest ih =>
      obtain ⟨_, next, hitem, hrest⟩ := run_bind_ok h
      obtain ⟨hmark, hmarks⟩ := List.forall_mem_cons.mp hmark
      have hothers := Ensures.forM fun other hmem => hkept item List.mem_cons_self other (List.mem_cons_of_mem _ hmem)
      have hstays := (hothers next (hmark state next hitem)).1
      change (rest.forM step).run next = _ at hrest
      rw [hrest] at hstays
      refine List.forall_mem_cons.mpr ⟨hstays, ih hmarks (fun first hfirst other hother => ?_) hrest⟩
      exact hkept first (List.mem_cons_of_mem _ hfirst) other (List.mem_cons_of_mem _ hother)

end GraphQuery.Outcome

namespace GraphQuery.Traced

variable {α β γ : Type}

@[ext] theorem ext {a b : Traced α} (houtcome : a.outcome = b.outcome) (hcalls : a.calls = b.calls) :
    a = b := by
  cases a
  cases b
  cases houtcome
  cases hcalls
  rfl

@[simp] theorem outcome_pure (value : α) : (pure value : Traced α).outcome = .ok value := rfl

@[simp] theorem calls_pure (value : α) : (pure value : Traced α).calls = [] := rfl

@[simp] theorem outcome_ofExcept (outcome : Except EngineError α) :
    (ofExcept outcome).outcome = outcome := rfl

@[simp] theorem calls_ofExcept (outcome : Except EngineError α) : (ofExcept outcome).calls = [] := rfl

theorem ofExcept_ok (value : α) : ofExcept (.ok value) = pure value := rfl

theorem bind_of_ok {first : Traced α} {next : α → Traced β} {value : α}
    (h : first.outcome = .ok value) :
    first >>= next = ⟨(next value).outcome, first.calls ++ (next value).calls⟩ := by
  change andThen first next = _
  rw [andThen, h]

theorem bind_of_error {first : Traced α} {next : α → Traced β} {error : EngineError}
    (h : first.outcome = .error error) : first >>= next = ⟨.error error, first.calls⟩ := by
  change andThen first next = _
  rw [andThen, h]

theorem outcome_bind (first : Traced α) (next : α → Traced β) :
    (first >>= next).outcome = first.outcome >>= fun value => (next value).outcome := by
  cases h : first.outcome with
  | error error => rw [bind_of_error h]; rfl
  | ok value => rw [bind_of_ok h]; rfl

theorem id_map (first : Traced α) : id <$> first = first := by
  change andThen first (fun value => pure value) = first
  cases h : first.outcome with
  | error error => apply ext <;> simp [andThen, h]
  | ok value => apply ext <;> simp [andThen, h]

theorem bind_assoc (first : Traced α) (next : α → Traced β) (last : β → Traced γ) :
    first >>= next >>= last = first >>= fun value => next value >>= last := by
  change andThen (andThen first next) last = andThen first (fun value => andThen (next value) last)
  cases h : first.outcome with
  | error error => simp [andThen, h]
  | ok value =>
      cases hnext : (next value).outcome with
      | error error => simp [andThen, h, hnext]
      | ok result => simp [andThen, h, hnext]

instance : LawfulMonad Traced :=
  LawfulMonad.mk' Traced id_map (fun _ _ => rfl) bind_assoc

/-- What is made of a result calls nothing more. -/
theorem calls_bind_pure (first : Traced α) (make : α → β) :
    (first >>= fun value => pure (make value)).calls = first.calls := by
  cases h : first.outcome with
  | error error => rw [bind_of_error h]
  | ok value => rw [bind_of_ok h, calls_pure, List.append_nil]

theorem bind_ok_iff {first : Traced α} {next : α → Traced β} {result : β} :
    (first >>= next).outcome = .ok result ↔
      ∃ value, first.outcome = .ok value ∧ (next value).outcome = .ok result := by
  rw [outcome_bind, Outcome.bind_ok_iff]

theorem bind_error_iff {first : Traced α} {next : α → Traced β} {error : EngineError} :
    (first >>= next).outcome = .error error ↔
      first.outcome = .error error ∨
        ∃ value, first.outcome = .ok value ∧ (next value).outcome = .error error := by
  rw [outcome_bind, Outcome.bind_error_iff]

/-- A sequence of steps that succeeds makes the calls of all of them. -/
theorem calls_mapM {step : α → Traced β} {items : List α} {results : List β}
    (h : (items.mapM step).outcome = .ok results) :
    (items.mapM step).calls = items.flatMap fun item => (step item).calls := by
  induction items generalizing results with
  | nil => rfl
  | cons item rest ih =>
      rw [List.mapM_cons] at h ⊢
      obtain ⟨result, hresult, h⟩ := bind_ok_iff.mp h
      obtain ⟨others, hothers, _⟩ := bind_ok_iff.mp h
      rw [bind_of_ok hresult, List.flatMap_cons, ← ih hothers, calls_bind_pure]

/-- Two computations make the same calls and have outcomes that agree. -/
structure Related (relation : α → β → Prop) (first : Traced α) (second : Traced β) : Prop where
  outcome : Outcome.Agree relation first.outcome second.outcome
  calls : first.calls = second.calls

namespace Related

variable {relation : α → β → Prop}

theorem pure {first : α} {second : β} (h : relation first second) :
    Related relation (Pure.pure first) (Pure.pure second) :=
  ⟨.ok h, rfl⟩

theorem refl (first : Traced α) : Related Eq first first :=
  ⟨.refl first.outcome, rfl⟩

theorem self {holds : α → Prop} {first : Traced α} (h : ∀ value, first.outcome = .ok value → holds value) :
    Related (fun one other => one = other ∧ holds one) first first := by
  refine ⟨?_, rfl⟩
  cases hfirst : first.outcome with
  | error error => exact .error error
  | ok value => exact .ok ⟨rfl, h value hfirst⟩

theorem bind {δ : Type} {relation' : γ → δ → Prop} {first : Traced α} {second : Traced β}
    {next : α → Traced γ} {next' : β → Traced δ} (h : Related relation first second)
    (hnext : ∀ a b, first.outcome = .ok a → second.outcome = .ok b → relation a b →
      Related relation' (next a) (next' b)) :
    Related relation' (first >>= next) (second >>= next') := by
  obtain ⟨houtcome, hcalls⟩ := h
  generalize hfirst : first.outcome = a at houtcome
  generalize hsecond : second.outcome = b at houtcome
  cases houtcome with
  | error error =>
      rw [bind_of_error hfirst, bind_of_error hsecond]
      exact ⟨.error error, hcalls⟩
  | ok hrelated =>
      obtain ⟨houtcome, hcalls'⟩ := hnext _ _ hfirst hsecond hrelated
      rw [bind_of_ok hfirst, bind_of_ok hsecond]
      refine ⟨houtcome, ?_⟩
      dsimp only
      rw [hcalls, hcalls']

theorem mono {other : α → β → Prop} {first : Traced α} {second : Traced β}
    (h : Related relation first second) (himp : ∀ a b, relation a b → other a b) :
    Related other first second :=
  ⟨h.outcome.mono himp, h.calls⟩

theorem ofExcept {first : Except EngineError α} {second : Except EngineError β}
    (h : Outcome.Agree relation first second) :
    Related relation (Traced.ofExcept first) (Traced.ofExcept second) :=
  ⟨h, rfl⟩

theorem mapM {ι κ : Type} {step : ι → Traced α} {other : κ → Traced β} {items : List ι} {others : List κ}
    (h : List.Forall₂ (fun a b => Related relation (step a) (other b)) items others) :
    Related (List.Forall₂ relation) (items.mapM step) (others.mapM other) := by
  induction h with
  | nil => exact .pure .nil
  | cons hfirst _ ih =>
      rw [List.mapM_cons, List.mapM_cons]
      exact hfirst.bind fun _ _ _ _ hone => ih.bind fun _ _ _ _ hrest => .pure (.cons hone hrest)

end Related

end GraphQuery.Traced
