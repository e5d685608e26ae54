import GraphQuery.Proofs.Store.Lookup
import Mathlib.Data.List.Nodup

/-! The history of a store. Each call of a run is written down with the document that it hits, known by its place
among all documents that its collection ever held. What a store holds after any run can be read off these
notes alone: the documents that no call has removed, in the order in which they came, each with the patches of
the calls that hit it. So nothing gets lost and nothing else gets in, whatever ids repeat or are patched. -/

namespace GraphQuery

namespace Store

/-- A call by which documents come, are found, change or go. -/
inductive Call where
  | insert (collection : String) (document : Value)
  | find (collection : String) (id : Value)
  | update (collection : String) (id patch : Value)
  | remove (collection : String) (id : Value)

/-- The collection that a call is about. -/
def Call.collection : Call → String
  | .insert collection _ => collection
  | .find collection _ => collection
  | .update collection _ _ => collection
  | .remove collection _ => collection

/-- The id by which a call looks for a document. -/
def Call.id? : Call → Option Value
  | .insert _ _ => none
  | .find _ id => some id
  | .update _ id _ => some id
  | .remove _ id => some id

/-- What a store answers to a call, and the store after it. -/
def perform (store : Store) : Call → Option Value × Store
  | .insert collection document => (some document, store.insert collection document)
  | .find collection id => (store.find? collection id, store)
  | .update collection id patch => store.update collection id patch
  | .remove collection id => store.remove collection id

/-- The store after a run of calls. -/
def after (store : Store) (calls : List Call) : Store :=
  calls.foldl (fun store call => (store.perform call).2) store

/-- A call with the place of the document that it hits, counted among all that its collection ever held. -/
structure Event where
  call : Call
  hit : Option Nat

namespace Event

/-- The document that a call adds to a collection. -/
def brought? (collection : String) : Event → Option Value
  | ⟨.insert name document, _⟩ => if name = collection then some document else none
  | _ => none

/-- The object by which a call patches the document at a place of a collection. -/
def changes? (collection : String) (place : Nat) : Event → Option Members
  | ⟨.update name _ (.object changes), hit⟩ => if name = collection ∧ hit = some place then some changes else none
  | _ => none

/-- Does a call remove the document at a place of a collection? -/
def removes (collection : String) (place : Nat) : Event → Bool
  | ⟨.remove name _, hit⟩ => decide (name = collection ∧ hit = some place)
  | _ => false

end Event

section

variable (start : Store) (history : List Event) (collection : String)

/-- All documents that a collection ever held, as they came: those that it began with, then those inserted. -/
def arrivals : List Value :=
  (start.collections.lookup collection).getD [] ++ history.filterMap (Event.brought? collection)

/-- A document with the patches of the calls that have hit it, in their order. -/
def standing (place : Nat) (document : Value) : Value :=
  (history.filterMap (Event.changes? collection place)).foldl
    (fun document changes => document.patched (.object changes)) document

/-- The documents of a collection that no call has removed, with their places, as they stand now. -/
def live : List (Nat × Value) :=
  ((arrivals start history collection).zipIdx.filter
    fun arrival => !history.any (Event.removes collection arrival.2)).map
      fun arrival => (arrival.2, standing history collection arrival.2 arrival.1)

/-- Has a collection been there from the beginning, or has a document been inserted into it? -/
def opened : Bool :=
  (start.collections.lookup collection).isSome || history.any fun event => (event.brought? collection).isSome

/-- The first document with an id that is there, with its place. -/
def target? (id : Value) : Option (Nat × Value) :=
  (live start history collection).find? fun entry => entry.2.hasId id

end

/-- What is written down of a call: it hits the first document with its id. -/
def event (start : Store) (history : List Event) (call : Call) : Event :=
  ⟨call, call.id?.bind fun id => (target? start history call.collection id).map Prod.fst⟩

/-- What is written down of a run of calls. -/
def record (start : Store) (calls : List Call) : List Event :=
  calls.foldl (fun history call => history ++ [event start history call]) []

variable {start store : Store} {history : List Event} {collection name : String} {place : Nat}
  {id document patch : Value}

/-! ### One more event -/

theorem arrivals_append (event : Event) : arrivals start (history ++ [event]) collection =
    arrivals start history collection ++ (event.brought? collection).toList := by
  unfold arrivals
  rw [List.filterMap_append, List.append_assoc]
  cases h : event.brought? collection <;> simp [h]

theorem arrivals_keep {event : Event} (h : event.brought? collection = none) :
    arrivals start (history ++ [event]) collection = arrivals start history collection := by
  rw [arrivals_append, h, Option.toList_none, List.append_nil]

theorem standing_append (event : Event) : standing (history ++ [event]) collection place document =
    (event.changes? collection place).elim (standing history collection place document)
      fun changes => (standing history collection place document).patched (.object changes) := by
  unfold standing
  rw [List.filterMap_append, List.foldl_append]
  cases h : event.changes? collection place <;> simp [h]

theorem removed_append (event : Event) : (history ++ [event]).any (Event.removes collection place) =
    (history.any (Event.removes collection place) || event.removes collection place) := by
  rw [List.any_append, List.any_cons, List.any_nil, Bool.or_false]

theorem opened_append (event : Event) : opened start (history ++ [event]) collection =
    (opened start history collection || (event.brought? collection).isSome) := by
  unfold opened
  rw [List.any_append, List.any_cons, List.any_nil, Bool.or_false, Bool.or_assoc]

/-- An event that concerns no document of a collection. -/
structure Event.Quiet (event : Event) (collection : String) : Prop where
  brought : event.brought? collection = none
  changes : ∀ place, event.changes? collection place = none
  removes : ∀ place, event.removes collection place = false

theorem quiet_find (hit : Option Nat) : Event.Quiet ⟨.find name id, hit⟩ collection :=
  ⟨rfl, fun _ => rfl, fun _ => rfl⟩

/-- Events of one collection concern no other one. -/
theorem quiet_of_ne {event : Event} (h : collection ≠ event.call.collection) : event.Quiet collection := by
  obtain ⟨call, hit⟩ := event
  have hne : call.collection ≠ collection := Ne.symm h
  cases call with
  | insert name document => exact ⟨if_neg hne, fun _ => rfl, fun _ => rfl⟩
  | find name id => exact quiet_find hit
  | update name id patch =>
      refine ⟨rfl, fun place => ?_, fun _ => rfl⟩
      cases patch <;> first | rfl | exact if_neg fun h => hne h.1
  | remove name id => exact ⟨rfl, fun _ => rfl, fun _ => decide_eq_false fun h => hne h.1⟩

/-- An event that hits nothing and brings nothing concerns no document. -/
theorem quiet_of_miss {call : Call} (hid : call.id?.isSome = true) : Event.Quiet ⟨call, none⟩ collection := by
  cases call with
  | insert name document => cases hid
  | find name id => exact quiet_find none
  | update name id patch =>
      refine ⟨rfl, fun place => ?_, fun _ => rfl⟩
      cases patch <;> first | rfl | exact if_neg fun h => nomatch h.2
  | remove name id => exact ⟨rfl, fun _ => rfl, fun _ => decide_eq_false fun h => nomatch h.2⟩

section

variable {event : Event} (hquiet : event.Quiet collection)

include hquiet

theorem opened_quiet : opened start (history ++ [event]) collection = opened start history collection := by
  rw [opened_append, hquiet.brought, Option.isSome_none, Bool.or_false]

theorem live_quiet : live start (history ++ [event]) collection = live start history collection := by
  unfold live
  rw [arrivals_keep hquiet.brought]
  simp only [standing_append, removed_append, hquiet.changes, hquiet.removes, Option.elim_none, Bool.or_false]

end

/-! ### What a call does to the documents that are there -/

/-- Calls only hit documents that have come. -/
def Placed (start : Store) (history : List Event) : Prop :=
  ∀ event ∈ history, ∀ place, event.hit = some place →
    place < (arrivals start history event.call.collection).length

/-- A document that no call has hit stands as it came. -/
theorem untouched (place : Nat) (document : Value)
    (h : ∀ event ∈ history, event.call.collection = collection → event.hit ≠ some place) :
    history.any (Event.removes collection place) = false ∧ standing history collection place document = document := by
  have hchanges : history.filterMap (Event.changes? collection place) = [] := by
    refine List.filterMap_eq_nil_iff.mpr fun event hmem => ?_
    have hhit := h event hmem
    unfold Event.changes?
    split
    · exact if_neg fun hthis => hhit hthis.1 hthis.2
    · rfl
  constructor
  · refine List.any_eq_false.mpr fun event hmem => ?_
    have hhit := h event hmem
    unfold Event.removes
    split
    · exact Bool.not_eq_true _ ▸ decide_eq_false fun hthis => hhit hthis.1 hthis.2
    · exact Bool.false_ne_true
  · rw [standing, hchanges, List.foldl_nil]

theorem live_insert (hplaced : Placed start history) :
    live start (history ++ [⟨.insert collection document, none⟩]) collection =
      live start history collection ++ [((arrivals start history collection).length, document)] := by
  -- no call can have hit the new place: all places that were hit lie before it
  have hfresh := untouched (arrivals start history collection).length document
    fun event hmem (hname : event.call.collection = collection) hhit =>
      absurd (hplaced event hmem _ hhit) (hname ▸ Nat.lt_irrefl _)
  have harrivals : arrivals start (history ++ [⟨.insert collection document, none⟩]) collection =
      arrivals start history collection ++ [document] := by
    rw [arrivals_append]
    simp [Event.brought?]
  have hremoves (place : Nat) : Event.removes collection place ⟨.insert collection document, none⟩ = false := rfl
  have hchanges (place : Nat) : Event.changes? collection place ⟨.insert collection document, none⟩ = none := rfl
  unfold live
  simp only [harrivals, standing_append, removed_append, hremoves, hchanges, Option.elim_none, Bool.or_false]
  rw [List.zipIdx_append, List.filter_append, List.map_append, Nat.zero_add]
  congr 1
  simp [hfresh.1, hfresh.2]

/-- Only an object patches, and only the document that is hit. -/
theorem standing_update (other : Nat) (document : Value) :
    standing (history ++ [⟨.update collection id patch, some place⟩]) collection other document =
      if other = place then (standing history collection other document).patched patch
      else standing history collection other document := by
  rw [standing_append]
  cases patch with
  | object changes =>
      by_cases hother : other = place
      · simp [Event.changes?, hother]
      · simp [Event.changes?, hother, Ne.symm hother]
  | _ => simp [Event.changes?, Value.patched]

theorem live_update : live start (history ++ [⟨.update collection id patch, some place⟩]) collection =
    (live start history collection).map fun entry =>
      if entry.1 = place then (entry.1, entry.2.patched patch) else entry := by
  have harrivals : arrivals start (history ++ [⟨.update collection id patch, some place⟩]) collection =
      arrivals start history collection := arrivals_keep rfl
  have hremoves (other : Nat) : Event.removes collection other ⟨.update collection id patch, some place⟩ = false :=
    rfl
  unfold live
  simp only [harrivals, removed_append, hremoves, Bool.or_false, List.map_map]
  refine List.map_congr_left fun arrival _ => ?_
  rw [standing_update, Function.comp_apply]
  split <;> rfl

theorem live_remove : live start (history ++ [⟨.remove collection id, some place⟩]) collection =
    (live start history collection).filter fun entry => decide (entry.1 ≠ place) := by
  have harrivals : arrivals start (history ++ [⟨.remove collection id, some place⟩]) collection =
      arrivals start history collection := arrivals_keep rfl
  have hchanges (other : Nat) : Event.changes? collection other ⟨.remove collection id, some place⟩ = none := rfl
  unfold live
  simp only [harrivals, standing_append, removed_append, hchanges, Option.elim_none]
  rw [List.filter_map, List.filter_filter]
  congr 1
  refine List.filter_congr fun arrival _ => ?_
  simp [Event.removes, Bool.not_or, Bool.and_comm, eq_comm]

theorem places_nodup : ((live start history collection).map Prod.fst).Nodup := by
  unfold live
  rw [List.map_map]
  refine ((List.filter_sublist).map _).nodup ?_
  show (((arrivals start history collection).zipIdx).map Prod.snd).Nodup
  rw [List.zipIdx_map_snd]
  exact List.nodup_range'

theorem place_lt {entry : Nat × Value} (h : entry ∈ live start history collection) :
    entry.1 < (arrivals start history collection).length := by
  obtain ⟨arrival, hmem, rfl⟩ := List.mem_map.mp h
  exact List.snd_lt_of_mem_zipIdx (List.mem_of_mem_filter hmem)

/-- A collection that has never been there has no documents. -/
theorem live_of_not_opened (h : opened start history collection = false) : live start history collection = [] := by
  unfold opened at h
  obtain ⟨hstart, hinserts⟩ := Bool.or_eq_false_iff.mp h
  have hnone : start.collections.lookup collection = none := by
    simpa using hstart
  have hbrought : history.filterMap (Event.brought? collection) = [] := by
    refine List.filterMap_eq_nil_iff.mpr fun event hmem => ?_
    simpa using List.any_eq_false.mp hinserts event hmem
  unfold live arrivals
  rw [hnone, hbrought]
  rfl

/-- What has documents has been opened. -/
theorem opened_of_live {before after : List (Nat × Value)} {entry : Nat × Value}
    (hlive : live start history collection = before ++ entry :: after) : opened start history collection = true := by
  cases hopened : opened start history collection with
  | true => rfl
  | false =>
      rw [live_of_not_opened hopened] at hlive
      exact absurd hlive.symm (List.append_ne_nil_of_right_ne_nil _ (List.cons_ne_nil _ _))

section

variable {before after : List (Nat × Value)}
  (hlive : live start history collection = before ++ (place, document) :: after)

include hlive

/-- The others have other places. -/
theorem place_ne {entry : Nat × Value} (h : entry ∈ before ∨ entry ∈ after) : entry.1 ≠ place := by
  have hnodup : ((live start history collection).map Prod.fst).Nodup := places_nodup
  rw [hlive, List.map_append, List.map_cons] at hnodup
  have hother := (List.nodup_cons.mp (List.nodup_middle.mp hnodup)).1
  intro hplace
  have hmem : entry.1 ∈ before.map Prod.fst ++ after.map Prod.fst :=
    List.mem_append.mpr (h.imp List.mem_map_of_mem List.mem_map_of_mem)
  exact hother (hplace ▸ hmem)

theorem live_update_at : live start (history ++ [⟨.update collection id patch, some place⟩]) collection =
    before ++ (place, document.patched patch) :: after := by
  have hkept (entry : Nat × Value) (h : entry ∈ before ∨ entry ∈ after) :
      (if entry.1 = place then (entry.1, entry.2.patched patch) else entry) = entry := if_neg (place_ne hlive h)
  rw [live_update, hlive, List.map_append, List.map_cons, if_pos rfl]
  rw [List.map_congr_left fun entry h => hkept entry (.inl h), List.map_congr_left fun entry h => hkept entry (.inr h)]
  simp

theorem live_remove_at : live start (history ++ [⟨.remove collection id, some place⟩]) collection =
    before ++ after := by
  have hkept (entry : Nat × Value) (h : entry ∈ before ∨ entry ∈ after) : decide (entry.1 ≠ place) = true :=
    decide_eq_true (place_ne hlive h)
  rw [live_remove, hlive, List.filter_append, List.filter_cons_of_neg (by simp)]
  rw [List.filter_eq_self.mpr fun entry h => hkept entry (.inl h),
    List.filter_eq_self.mpr fun entry h => hkept entry (.inr h)]

end

/-! ### One more call -/

/-- A history tells what a store holds: the collections that have been opened, each with the documents that are
there. -/
structure Records (start : Store) (history : List Event) (store : Store) : Prop where
  contents : ∀ collection, store.collections.lookup collection =
    if opened start history collection then some ((live start history collection).map Prod.snd) else none
  placed : Placed start history

theorem lookup_seed (documents : List Value) (other : String) :
    (store.seed collection documents).collections.lookup other =
      if other = collection then some documents else store.collections.lookup other :=
  Keyed.lookup_put _ _ _ _

/-- A call changes no other collection. -/
theorem perform_other (call : Call) {other : String} (h : other ≠ call.collection) :
    (store.perform call).2.collections.lookup other = store.collections.lookup other := by
  have hseed (documents : List Value) :
      (store.seed call.collection documents).collections.lookup other = store.collections.lookup other :=
    (lookup_seed documents other).trans (if_neg h)
  cases call with
  | insert collection document => exact hseed _
  | find collection id => rfl
  | update collection id patch =>
      show (store.update collection id patch).2.collections.lookup other = _
      rw [update_eq]
      split
      · exact hseed _
      · rfl
  | remove collection id =>
      show (store.remove collection id).2.collections.lookup other = _
      rw [remove_eq]
      split
      · exact hseed _
      · rfl

namespace Records

variable (h : Records start history store)

include h

/-- Plans read what the history tells. -/
theorem documents_eq (collection : String) : store.documents collection =
    if opened start history collection then .ok ((live start history collection).map Prod.snd)
    else .error (.unknownCollection collection) := by
  rw [documents, h.contents]
  cases opened start history collection <;> rfl

theorem perform_insert : store.perform (.insert collection document) = (some document,
    store.seed collection ((live start history collection).map Prod.snd ++ [document])) := by
  have hdocuments : (store.collections.lookup collection).getD [] = (live start history collection).map Prod.snd := by
    rw [h.contents]
    cases hopened : opened start history collection with
    | true => rfl
    | false =>
        rw [live_of_not_opened hopened]
        rfl
  rw [perform, insert, hdocuments]

/-- A call with an id that no document has does nothing. -/
theorem perform_miss {call : Call} (hid : call.id? = some id)
    (hmiss : target? start history call.collection id = none) : store.perform call = (none, store) := by
  have hmissing (documents : List Value) (hdocuments : store.collections.lookup call.collection = some documents)
      (document : Value) (hmem : document ∈ documents) : document.hasId id = false := by
    rw [h.contents] at hdocuments
    split at hdocuments
    · obtain rfl := Option.some.inj hdocuments
      obtain ⟨entry, hentry, rfl⟩ := List.mem_map.mp hmem
      simpa using List.find?_eq_none.mp hmiss entry hentry
    · cases hdocuments
  cases call with
  | insert collection document => cases hid
  | find collection other =>
      obtain rfl := Option.some.inj hid
      exact congrArg (fun found => (found, store)) (find?_of_missing hmissing)
  | update collection other patch =>
      obtain rfl := Option.some.inj hid
      exact update_of_missing hmissing patch
  | remove collection other =>
      obtain rfl := Option.some.inj hid
      exact remove_of_missing hmissing

/-- All calls with one id hit the first document that has it, and leave the others alone. -/
theorem perform_hit (htarget : target? start history collection id = some (place, document)) :
    ∃ before after, live start history collection = before ++ (place, document) :: after ∧
      store.perform (.find collection id) = (some document, store) ∧
      (∀ patch, store.perform (.update collection id patch) = (some (document.patched patch),
        store.seed collection (before.map Prod.snd ++ document.patched patch :: after.map Prod.snd))) ∧
      store.perform (.remove collection id) = (some document,
        store.seed collection (before.map Prod.snd ++ after.map Prod.snd)) := by
  obtain ⟨hdocument, before, after, hlive, hbefore⟩ := List.find?_eq_some_iff_append.mp htarget
  have hdocuments : store.collections.lookup collection =
      some (before.map Prod.snd ++ document :: after.map Prod.snd) := by
    rw [h.contents, if_pos (opened_of_live hlive), hlive, List.map_append, List.map_cons]
  have hothers (other : Value) (hmem : other ∈ before.map Prod.snd) : other.hasId id = false := by
    obtain ⟨entry, hentry, rfl⟩ := List.mem_map.mp hmem
    simpa using hbefore entry hentry
  refine ⟨before, after, hlive, ?_, update_of_first hdocuments hothers hdocument,
    remove_of_first hdocuments hothers hdocument⟩
  rw [perform, find?_of_first hdocuments hothers hdocument]

/-- The place that is written down of a call is one of those that have come. -/
theorem placed_append (call : Call) : Placed start (history ++ [event start history call]) := by
  intro other hmem place hhit
  have hgrows : (arrivals start history other.call.collection).length ≤
      (arrivals start (history ++ [event start history call]) other.call.collection).length := by
    rw [arrivals_append, List.length_append]
    omega
  refine Nat.lt_of_lt_of_le ?_ hgrows
  rcases List.mem_append.mp hmem with hold | hnew
  · exact h.placed other hold place hhit
  · obtain rfl := List.mem_singleton.mp hnew
    obtain ⟨id, _, htarget⟩ := Option.bind_eq_some_iff.mp hhit
    obtain ⟨entry, hentry, rfl⟩ := Option.map_eq_some_iff.mp htarget
    exact place_lt (List.mem_of_find?_eq_some hentry)

/-- Of a collection that an event does not concern, the longer history tells what the shorter one did. -/
theorem contents_quiet {event : Event} (hquiet : event.Quiet collection) : store.collections.lookup collection =
    if opened start (history ++ [event]) collection then
      some ((live start (history ++ [event]) collection).map Prod.snd)
    else none := by
  rw [opened_quiet hquiet, live_quiet hquiet]
  exact h.contents collection

theorem contents_insert : (store.perform (.insert collection document)).2.collections.lookup collection =
    if opened start (history ++ [⟨.insert collection document, none⟩]) collection then
      some ((live start (history ++ [⟨.insert collection document, none⟩]) collection).map Prod.snd)
    else none := by
  have hopened : opened start (history ++ [⟨.insert collection document, none⟩]) collection = true := by
    rw [opened_append]
    simp [Event.brought?]
  rw [h.perform_insert, if_pos hopened, live_insert h.placed, List.map_append]
  exact (lookup_seed _ _).trans (if_pos rfl)

theorem contents_hit {call : Call} (hid : call.id? = some id)
    (htarget : target? start history call.collection id = some (place, document)) :
    (store.perform call).2.collections.lookup call.collection =
      some ((live start (history ++ [⟨call, some place⟩]) call.collection).map Prod.snd) := by
  obtain ⟨before, after, hlive, _, hupdate, hremove⟩ := h.perform_hit htarget
  cases call with
  | insert collection document => cases hid
  | find collection other =>
      have hquiet : Event.Quiet ⟨.find collection other, some place⟩ collection := quiet_find _
      exact (h.contents collection).trans ((if_pos (opened_of_live hlive)).trans (live_quiet hquiet ▸ rfl))
  | update collection other patch =>
      obtain rfl := Option.some.inj hid
      simp only [Call.collection] at hlive hupdate ⊢
      rw [hupdate patch, live_update_at hlive, List.map_append, List.map_cons]
      exact (lookup_seed _ _).trans (if_pos rfl)
  | remove collection other =>
      obtain rfl := Option.some.inj hid
      simp only [Call.collection] at hlive hremove ⊢
      rw [hremove, live_remove_at hlive, List.map_append]
      exact (lookup_seed _ _).trans (if_pos rfl)

/-- What a call does to the documents of its collection is what is written down of it. -/
theorem contents_own (call : Call) : (store.perform call).2.collections.lookup call.collection =
    if opened start (history ++ [event start history call]) call.collection then
      some ((live start (history ++ [event start history call]) call.collection).map Prod.snd)
    else none := by
  cases hid : call.id? with
  | none =>
      cases call with
      | insert collection document => exact h.contents_insert
      | find collection id => cases hid
      | update collection id patch => cases hid
      | remove collection id => cases hid
  | some id =>
      have hevent : event start history call = ⟨call, (target? start history call.collection id).map Prod.fst⟩ := by
        rw [event, hid, Option.bind_some]
      rw [hevent]
      cases htarget : target? start history call.collection id with
      | none =>
          rw [h.perform_miss hid htarget]
          exact h.contents_quiet (quiet_of_miss (hid ▸ rfl))
      | some entry =>
          obtain ⟨before, after, hlive, _⟩ := h.perform_hit htarget
          rw [opened_append, opened_of_live hlive, Bool.true_or, if_pos rfl]
          exact h.contents_hit hid htarget

/-- Each call leaves a store that its history tells. -/
theorem step (call : Call) : Records start (history ++ [event start history call]) (store.perform call).2 := by
  refine ⟨fun collection => ?_, h.placed_append call⟩
  by_cases hcollection : collection = call.collection
  · subst hcollection
    exact h.contents_own call
  · rw [perform_other call hcollection]
    exact h.contents_quiet (quiet_of_ne hcollection)

end Records

/-- After any run of calls, a store holds what the history of the run tells. -/
theorem records_after (start : Store) (calls : List Call) : Records start (record start calls) (start.after calls) := by
  -- from the end of the run, where the history grows
  induction calls using List.reverseRecOn with
  | nil =>
      refine ⟨fun collection => ?_, nofun⟩
      have hlive : (live start [] collection).map Prod.snd = (start.collections.lookup collection).getD [] := by
        simp [live, arrivals, standing, Function.comp_def, List.zipIdx_map_fst]
      show start.collections.lookup collection =
        if (start.collections.lookup collection).isSome || false then some ((live start [] collection).map Prod.snd)
        else none
      rw [hlive]
      cases start.collections.lookup collection <;> rfl
  | append_singleton calls call ih =>
      rw [record, after, List.foldl_append, List.foldl_append]
      exact ih.step call

/-- **A store loses no document and no update.** After any run of calls on any store, whatever ids repeat or are
patched, each collection that has been opened holds the documents that no call has removed, in the order in
which they came, each with the patches of the calls that hit it; plans read just these, and there is no other
collection. The next call hits what the history says: an insertion comes behind the documents that are there,
all calls with one id hit the first document that has it and leave the others alone, and where none has it they
answer nothing and leave the store as it is. No call changes another collection. -/
theorem history_faithful (start : Store) (calls : List Call) :
    let store := start.after calls
    let history := record start calls
    (∀ collection, store.collections.lookup collection =
      if opened start history collection then some ((live start history collection).map Prod.snd) else none) ∧
    (∀ collection, store.documents collection =
      if opened start history collection then .ok ((live start history collection).map Prod.snd)
      else .error (.unknownCollection collection)) ∧
    (∀ collection document, store.perform (.insert collection document) = (some document,
      store.seed collection ((live start history collection).map Prod.snd ++ [document]))) ∧
    (∀ collection id place document, target? start history collection id = some (place, document) →
      ∃ before after, live start history collection = before ++ (place, document) :: after ∧
        store.perform (.find collection id) = (some document, store) ∧
        (∀ patch, store.perform (.update collection id patch) = (some (document.patched patch),
          store.seed collection (before.map Prod.snd ++ document.patched patch :: after.map Prod.snd))) ∧
        store.perform (.remove collection id) = (some document,
          store.seed collection (before.map Prod.snd ++ after.map Prod.snd))) ∧
    (∀ call id, call.id? = some id → target? start history call.collection id = none →
      store.perform call = (none, store)) ∧
    ∀ call other, other ≠ call.collection →
      (store.perform call).2.collections.lookup other = store.collections.lookup other := by
  intro store history
  have hrecords : Records start history store := records_after start calls
  exact ⟨hrecords.contents, hrecords.documents_eq, fun _ _ => hrecords.perform_insert,
    fun _ _ _ _ => hrecords.perform_hit, fun _ _ => hrecords.perform_miss, fun call _ => perform_other call⟩

/-- Of two users with one id, the patch takes the id from the first, so that the removal hits the second. -/
example :
    let user (id : Int) : Value := .object [("id", .int id)]
    let calls : List Call := [.insert "users" (user 1), .update "users" (.int 1) (user 2), .remove "users" (.int 1)]
    (record (empty.seed "users" [user 1]) calls).map Event.hit = [none, some 0, some 1] :=
  rfl

end Store

end GraphQuery
