import GraphQuery.Proofs.Plan.Comparison
import GraphQuery.Proofs.Store.Documents
import GraphQuery.Proofs.Value.Members

/-! Looking documents up. A store finds, patches and removes the first document of a collection that has an id, and
a plan that filters by an id shows the first document that the filter finds equal. Equal for a filter is
less than being the same value: a number that is written as a whole one and as a double is one number for a filter
and two for the store, and so are integers that share their double. The two ways agree on every other id. -/

namespace GraphQuery

/-- A member that a patch does not have is left alone by it. -/
theorem Members.get?_overlay {key : String} {members changes : Members} (h : get? key changes = none) :
    get? key (overlay members changes) = get? key members := by
  have hlookup : changes.reverse.lookup key = none := by
    rw [List.lookup_eq_none_iff]
    intro entry hmem
    replace hmem := List.mem_reverse.mp hmem
    induction changes with
    | nil => cases hmem
    | cons change rest ih =>
        rw [get?] at h
        split at h
        · cases h
        · next hne =>
            rcases List.mem_cons.mp hmem with rfl | hrest
            · exact bne_iff_ne.mpr (Ne.symm hne)
            · exact ih h hrest
  rw [overlay, get?_insertAll_reverse, hlookup, Option.none_or]

namespace Value

variable {document id patch : Value} {key : String}

theorem get?_patched (h : patch.get? key = none) : (document.patched patch).get? key = document.get? key := by
  unfold patched
  split
  · exact Members.get?_overlay h
  · rfl

/-- Does a filter find the id of a document equal to a given one? A document without an id has null for it. -/
def matchesId (document id : Value) : Bool :=
  Comparison.eq.holds ((document.get? "id").getD .null) id

theorem looselyEqual_of_beq {a b : Value} (h : (a == b) = true) : a.looselyEqual b = true := by
  unfold looselyEqual
  split
  · next m n =>
      change Number.beq m n = true at h
      unfold Number.beq at h
      split at h
      · rw [eq_of_beq h]
        exact beq_self_eq_true _
      · exact h
      · cases h
  · exact h

/-- A document that has an id matches it. -/
theorem matchesId_of_hasId (h : document.hasId id = true) : document.matchesId id = true := by
  unfold hasId at h
  split at h
  · next found hfound =>
      rw [matchesId, hfound]
      exact looselyEqual_of_beq h
  · cases h

theorem hasId_of_not_matchesId (h : document.matchesId id = false) : document.hasId id = false := by
  cases hhas : document.hasId id with
  | false => rfl
  | true => exact (matchesId_of_hasId hhas).symm.trans h

/-- An id that is no number is matched by the documents that have it, and by no others. -/
theorem hasId_of_matchesId (hnull : id ≠ .null) (hnumber : ∀ n, id ≠ .number n) (h : document.matchesId id = true) :
    document.hasId id = true := by
  rw [matchesId] at h
  cases hfound : document.get? "id" with
  | none =>
      rw [hfound] at h
      exact absurd (isNull_iff.mp ((null_looselyEqual id).symm.trans h)) hnull
  | some found =>
      rw [hfound] at h
      change found.looselyEqual id = true at h
      rw [hasId, hfound]
      unfold looselyEqual at h
      split at h
      · exact absurd rfl (hnumber _)
      · exact h

/-- What matches an id is no null. -/
theorem ne_null_of_matchesId (hnull : id ≠ .null) (h : document.matchesId id = true) : document ≠ .null := by
  rintro rfl
  exact hnull (isNull_iff.mp ((null_looselyEqual id).symm.trans h))

theorem nonNull?_of_ne (h : document ≠ .null) : document.nonNull? = some document := by
  cases document <;> first | rfl | exact absurd rfl h

end Value

/-- The plan that shows the first document of a collection with an id. -/
def Plan.byId (collection : String) (id : Value) : Plan :=
  .firstOrDefault (.filter (.collection collection) (.compare .eq (.member .row "id") (.const id)))

namespace Documents

variable {id patch document : Value} {documents before after : List Value}

/-- No document has an id, or one is the first to have it. -/
theorem first_cases (test : Value → Bool) (documents : List Value) :
    (∀ document ∈ documents, test document = false) ∨ ∃ before document after,
      documents = before ++ document :: after ∧ (∀ other ∈ before, test other = false) ∧ test document = true := by
  cases h : documents.find? test with
  | none =>
      left
      simpa using List.find?_eq_none.mp h
  | some document =>
      obtain ⟨htest, before, after, rfl, hbefore⟩ := List.find?_eq_some_iff_append.mp h
      exact Or.inr ⟨before, document, after, rfl, fun other hmem => by simpa using hbefore other hmem, htest⟩

theorem find?_first {test : Value → Bool} (hbefore : ∀ other ∈ before, test other = false)
    (hdocument : test document = true) : (before ++ document :: after).find? test = some document := by
  refine List.find?_eq_some_iff_append.mpr ⟨hdocument, before, after, rfl, fun other hmem => ?_⟩
  rw [hbefore other hmem]
  rfl

theorem find?_missing {test : Value → Bool} (h : ∀ document ∈ documents, test document = false) :
    documents.find? test = none := by
  refine List.find?_eq_none.mpr fun document hmem => ?_
  rw [h document hmem]
  exact Bool.false_ne_true

theorem patchFirst_missing (h : ∀ document ∈ documents, document.hasId id = false) :
    patchFirst id patch documents = none := by
  induction documents with
  | nil => rfl
  | cons other rest ih =>
      obtain ⟨hother, hrest⟩ := List.forall_mem_cons.mp h
      rw [patchFirst, hother, ih hrest]
      rfl

theorem removeFirst_missing (h : ∀ document ∈ documents, document.hasId id = false) :
    removeFirst id documents = none := by
  induction documents with
  | nil => rfl
  | cons other rest ih =>
      obtain ⟨hother, hrest⟩ := List.forall_mem_cons.mp h
      rw [removeFirst, hother, ih hrest]
      rfl

/-- The first document with an id is the first one to match it if and only if that one has the id. -/
theorem find?_hasId_iff : (documents.find? fun document => document.hasId id) =
      (documents.find? fun document => document.matchesId id) ↔
    ∀ document, documents.find? (fun document => document.matchesId id) = some document →
      document.hasId id = true := by
  constructor
  · intro h document hfound
    have hhas := List.find?_some (h.trans hfound)
    exact hhas
  · intro h
    rcases first_cases (fun document => document.matchesId id) documents with hmissing | hfirst
    · rw [find?_missing hmissing]
      exact find?_missing fun document hmem => Value.hasId_of_not_matchesId (hmissing document hmem)
    · obtain ⟨before, document, after, rfl, hbefore, hdocument⟩ := hfirst
      have hfound : (before ++ document :: after).find? (fun document => document.matchesId id) = some document :=
        find?_first hbefore hdocument
      rw [hfound]
      exact find?_first (fun other hmem => Value.hasId_of_not_matchesId (hbefore other hmem)) (h document hfound)

/-- Null stands for no document. -/
theorem nonNull?_matched (hid : id ≠ .null) :
    ((documents.find? fun document => document.matchesId id).getD .null).nonNull? =
      documents.find? fun document => document.matchesId id := by
  cases h : documents.find? fun document => document.matchesId id with
  | none => rfl
  | some document =>
      have hmatches := List.find?_some h
      exact Value.nonNull?_of_ne (Value.ne_null_of_matchesId hid hmatches)

variable (hbefore : ∀ other ∈ before, other.hasId id = false) (hdocument : document.hasId id = true)

include hbefore hdocument

theorem patchFirst_first : patchFirst id patch (before ++ document :: after) =
    some (document.patched patch, before ++ document.patched patch :: after) := by
  induction before with
  | nil => rw [List.nil_append, patchFirst, if_pos hdocument, List.nil_append]
  | cons other rest ih =>
      obtain ⟨hother, hrest⟩ := List.forall_mem_cons.mp hbefore
      rw [List.cons_append, patchFirst, hother, ih hrest]
      rfl

theorem removeFirst_first :
    removeFirst id (before ++ document :: after) = some (document, before ++ after) := by
  induction before with
  | nil => rw [List.nil_append, removeFirst, if_pos hdocument, List.nil_append]
  | cons other rest ih =>
      obtain ⟨hother, hrest⟩ := List.forall_mem_cons.mp hbefore
      rw [List.cons_append, removeFirst, hother, ih hrest]
      rfl

end Documents

namespace Store

open Documents

variable {store : Store} {collection : String} {id document : Value} {documents before after : List Value}

/-! ### The three calls by an id -/

theorem update_eq (patch : Value) : store.update collection id patch =
    match (store.collections.lookup collection).bind (patchFirst id patch) with
    | some (found, documents) => (some found, store.seed collection documents)
    | none => (none, store) :=
  rfl

theorem remove_eq : store.remove collection id =
    match (store.collections.lookup collection).bind (removeFirst id) with
    | some (found, documents) => (some found, store.seed collection documents)
    | none => (none, store) :=
  rfl

section

variable (hdocuments : store.collections.lookup collection = some (before ++ document :: after))
  (hbefore : ∀ other ∈ before, other.hasId id = false) (hdocument : document.hasId id = true)

include hdocuments hbefore hdocument

theorem find?_of_first : store.find? collection id = some document := by
  rw [find?, hdocuments, Option.bind_some, find?_first hbefore hdocument]

theorem update_of_first (patch : Value) : store.update collection id patch =
    (some (document.patched patch), store.seed collection (before ++ document.patched patch :: after)) := by
  rw [update_eq, hdocuments, Option.bind_some, patchFirst_first hbefore hdocument]

theorem remove_of_first :
    store.remove collection id = (some document, store.seed collection (before ++ after)) := by
  rw [remove_eq, hdocuments, Option.bind_some, removeFirst_first hbefore hdocument]

end

section

variable (h : ∀ documents, store.collections.lookup collection = some documents →
  ∀ document ∈ documents, document.hasId id = false)

include h

theorem find?_of_missing : store.find? collection id = none := by
  rw [find?]
  cases hlookup : store.collections.lookup collection with
  | none => rfl
  | some documents => exact find?_missing (h documents hlookup)

/-- A call that hits nothing leaves the store as it is. -/
theorem update_of_missing (patch : Value) : store.update collection id patch = (none, store) := by
  rw [update_eq]
  cases hlookup : store.collections.lookup collection with
  | none => rfl
  | some documents => rw [Option.bind_some, patchFirst_missing (h documents hlookup)]

theorem remove_of_missing : store.remove collection id = (none, store) := by
  rw [remove_eq]
  cases hlookup : store.collections.lookup collection with
  | none => rfl
  | some documents => rw [Option.bind_some, removeFirst_missing (h documents hlookup)]

end

/-! ### The plan -/

/-- A store answers the plan with the first document that matches the id, or with null. -/
theorem dispatch_byId (hdocuments : store.collections.lookup collection = some documents) (settings : StoreSettings) :
    (store.dispatch settings (Plan.byId collection id)).1 =
      .ok ((documents.find? fun document => document.matchesId id).getD .null) := by
  have hcasts : (Plan.byId collection id).any Plan.isCast = false := rfl
  have hitems : (Plan.collection collection).evalIn (store.source settings) [] .null = .ok (.array documents) := by
    refine Outcome.map_ok_iff.mpr ⟨documents, ?_, rfl⟩
    show store.documents collection = _
    rw [Store.documents, hdocuments]
  have hkept := Plan.filter_member_ok hitems .eq "id" id
  show (if !settings.capabilities.supportsCast && _ then _ else _) = _
  rw [hcasts, Bool.and_false, if_neg Bool.false_ne_true, Plan.run, Plan.eval, Plan.byId, Plan.evalIn]
  refine Outcome.bind_ok_iff.mpr ⟨_, hkept, ?_⟩
  refine Outcome.bind_ok_iff.mpr ⟨_, rfl, ?_⟩
  rw [Option.bind_some, List.head?_filter]
  rfl

/-- Where the first document to match an id has it, the calls that write touch that document. -/
theorem writes_of_matched (hdocuments : store.collections.lookup collection = some (before ++ document :: after))
    (hbefore : ∀ other ∈ before, other.matchesId id = false) (hdocument : document.hasId id = true)
    (settings : StoreSettings) :
    store.remove collection id = (some document, store.seed collection (before ++ after)) ∧
      ∀ patch, store.update collection id patch =
          (some (document.patched patch), store.seed collection (before ++ document.patched patch :: after)) ∧
        (patch.get? "id" = none →
          ((store.update collection id patch).2.dispatch settings (Plan.byId collection id)).1 =
            .ok (document.patched patch)) := by
  have hothers (other : Value) (hmem : other ∈ before) : other.hasId id = false :=
    Value.hasId_of_not_matchesId (hbefore other hmem)
  refine ⟨remove_of_first hdocuments hothers hdocument, fun patch => ?_⟩
  have hupdate := update_of_first hdocuments hothers hdocument patch
  refine ⟨hupdate, fun hpatch => ?_⟩
  have hmatches : (document.patched patch).matchesId id = true := by
    rw [Value.matchesId, Value.get?_patched hpatch]
    exact Value.matchesId_of_hasId hdocument
  have hafter : (store.update collection id patch).2.collections.lookup collection =
      some (before ++ document.patched patch :: after) := by
    rw [hupdate]
    exact (Keyed.lookup_put _ _ _ _).trans (if_pos rfl)
  rw [dispatch_byId hafter, find?_first hbefore hmatches, Option.getD_some]

/-- **Lookups and plans agree where ids do.** A plan that shows the first document with an id never fails on a
collection that there is. A lookup gives the document shown, and nothing for null, if and only if the first
document whose id the filter finds equal has just that id, as it has under every id that is no number. Then a
call that writes touches the document shown, in its place, and after a patch that leaves the id alone the
plan shows the document as patched; where nothing is shown, nothing is touched. -/
theorem lookup_agrees_iff (hdocuments : store.collections.lookup collection = some documents) (hid : id ≠ .null)
    (settings : StoreSettings) :
    ∃ shown, (store.dispatch settings (Plan.byId collection id)).1 = .ok shown ∧
      (store.find? collection id = shown.nonNull? ↔ ∀ document,
        documents.find? (fun document => document.matchesId id) = some document → document.hasId id = true) ∧
      ((∀ n, id ≠ .number n) → store.find? collection id = shown.nonNull?) ∧
      (store.find? collection id = shown.nonNull? →
        (shown = .null → store.remove collection id = (none, store) ∧
          ∀ patch, store.update collection id patch = (none, store)) ∧
        (shown ≠ .null → ∃ before after, documents = before ++ shown :: after ∧
          (∀ other ∈ before, other.matchesId id = false) ∧
          store.remove collection id = (some shown, store.seed collection (before ++ after)) ∧
          ∀ patch, store.update collection id patch =
              (some (shown.patched patch), store.seed collection (before ++ shown.patched patch :: after)) ∧
            (patch.get? "id" = none →
              ((store.update collection id patch).2.dispatch settings (Plan.byId collection id)).1 =
                .ok (shown.patched patch)))) := by
  have hfind : store.find? collection id = documents.find? fun document => document.hasId id := by
    rw [find?, hdocuments, Option.bind_some]
  have hiff : store.find? collection id =
      ((documents.find? fun document => document.matchesId id).getD .null).nonNull? ↔ ∀ document,
        documents.find? (fun document => document.matchesId id) = some document → document.hasId id = true := by
    rw [hfind, nonNull?_matched hid]
    exact find?_hasId_iff
  refine ⟨_, dispatch_byId hdocuments settings, hiff, fun hnumber => ?_, fun hagree => ?_⟩
  · refine hiff.mpr fun document hfound => ?_
    have hmatches := List.find?_some hfound
    exact Value.hasId_of_matchesId hid hnumber hmatches
  · rcases first_cases (fun document => document.matchesId id) documents with hmissing | hfirst
    · have hnone (others : List Value) (hothers : store.collections.lookup collection = some others)
          (document : Value) (hmem : document ∈ others) : document.hasId id = false := by
        rw [hdocuments, Option.some.injEq] at hothers
        exact Value.hasId_of_not_matchesId (hmissing document (hothers ▸ hmem))
      rw [find?_missing hmissing]
      exact ⟨fun _ => ⟨remove_of_missing hnone, update_of_missing hnone⟩, fun hshown => absurd rfl hshown⟩
    · obtain ⟨before, document, after, rfl, hbefore, hdocument⟩ := hfirst
      have hfound : (before ++ document :: after).find? (fun document => document.matchesId id) = some document :=
        find?_first hbefore hdocument
      have hhas := hiff.mp hagree document hfound
      rw [hfound, Option.getD_some]
      refine ⟨fun hnull => absurd hnull (Value.ne_null_of_matchesId hid hdocument), fun _ => ?_⟩
      exact ⟨before, after, rfl, hbefore, writes_of_matched hdocuments hbefore hhas settings⟩

/-- Behind documents without an id or with a text for it, the first user with the number is found as it is shown. -/
theorem users_lookup_agrees :
    let joe : Value := .object [("id", .int 7), ("name", .string "Joe")]
    let seven : Value := .number (.float ⟨false, 0x401C000000000000, by decide⟩)
    let users : List Value := [.object [], .object [("id", .string "7")], joe, .object [("id", seven)]]
    let store := Store.empty.seed "users" users
    (store.collections.lookup "users" = some users ∧ Value.int 7 ≠ .null) ∧
      ∃ shown, (store.dispatch .standard (Plan.byId "users" (.int 7))).1 = .ok shown ∧
        store.find? "users" (.int 7) = shown.nonNull? := by
  intro joe seven users store
  have hdocuments : store.collections.lookup "users" = some users := rfl
  have hid : Value.int 7 ≠ .null := nofun
  obtain ⟨shown, hanswer, hiff, _⟩ := lookup_agrees_iff hdocuments hid .standard
  refine ⟨⟨hdocuments, hid⟩, shown, hanswer, hiff.mpr fun document hfound => ?_⟩
  have hjoe : users.find? (fun document => document.matchesId (.int 7)) = some joe := rfl
  rw [hjoe, Option.some.injEq] at hfound
  rw [← hfound]
  rfl

/-- A user whose id is written as a double is shown under the whole number, but neither found nor patched. -/
theorem user_shown_not_found :
    let seven : Value := .number (.float ⟨false, 0x401C000000000000, by decide⟩)
    let joe : Value := .object [("id", seven), ("name", .string "Joe")]
    let store := Store.empty.seed "users" [joe]
    (store.dispatch .standard (Plan.byId "users" (.int 7))).1 = .ok joe ∧
      store.find? "users" (.int 7) = none ∧
      ∀ patch, store.update "users" (.int 7) patch = (none, store) := by
  intro seven joe store
  exact ⟨rfl, rfl, fun _ => rfl⟩

end Store

end GraphQuery
