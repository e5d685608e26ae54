import GraphQuery.Proofs.Keyed
import GraphQuery.Proofs.Outcome
import GraphQuery.Proofs.Value.Members
import GraphQuery.Query.Selection

/-! Objects that show levels. Responses show the first selection of each key, be it at the root, where all
selections count, or on rows, where those count that apply. What such an object has under a key is the
answer of the selection that is shown there. -/

namespace GraphQuery

namespace BoundSelection

/-- An object shows the first selection of each key, under its response key and with its answer. -/
def Shown (key? : BoundSelection → Option String) (answer : BoundSelection → Except EngineError Value)
    (level : List BoundSelection) (out : Members) : Prop :=
  ∃ shown, Members.ofList shown = out ∧ (Keyed.firsts key? (fun _ => false) level).mapM
    (fun selection => (answer selection).map (selection.outputName, ·)) = .ok shown

/-- Keys that are response keys where there are any. -/
def Named (key? : BoundSelection → Option String) : Prop :=
  ∀ selection key, key? selection = some key → selection.outputName = key

section

variable {key? : BoundSelection → Option String} (hnamed : Named key?)
  {answer answer' : BoundSelection → Except EngineError Value} {level others : List BoundSelection}
  {out out' : Members}

include hnamed

theorem outputs_nodup : ((Keyed.firsts key? (fun _ => false) level).map outputName).Nodup :=
  Keyed.firsts_nodup hnamed

theorem Shown.get?_iff (h : Shown key? answer level out) {key : String} {value : Value} :
    Members.get? key out = some value ↔ ∃ selection ∈ Keyed.firsts key? (fun _ => false) level,
      selection.outputName = key ∧ answer selection = .ok value := by
  obtain ⟨shown, rfl, hshown⟩ := h
  have hnodup : (shown.map Prod.fst).Nodup := by
    rw [Outcome.names_of_mapM hshown]
    exact outputs_nodup hnamed
  have hentry : Members.get? key (.ofList shown) = some value ↔ (key, value) ∈ shown := by
    refine ⟨fun hget => ?_, Members.get?_of_mem hnodup⟩
    rw [Members.get?_ofList hnodup, List.lookup_eq_some_iff] at hget
    obtain ⟨before, after, rfl, _⟩ := hget
    exact List.mem_append_right _ List.mem_cons_self
  rw [hentry, Outcome.mem_of_mapM hshown]
  refine exists_congr fun selection => and_congr_right fun _ => ?_
  rw [Outcome.map_ok_iff]
  constructor
  · rintro ⟨found, hanswer, hpair⟩
    cases hpair
    exact ⟨rfl, hanswer⟩
  · rintro ⟨rfl, hanswer⟩
    exact ⟨value, hanswer, rfl⟩

/-- Among siblings with response keys of their own, a key is there when its selection is shown. -/
theorem Shown.get?_of_distinct (h : Shown key? answer level out) (hdistinct : (level.map outputName).Nodup)
    {selection : BoundSelection} (hmem : selection ∈ level) {value : Value} :
    Members.get? selection.outputName out = some value ↔
      (key? selection).isSome = true ∧ answer selection = .ok value := by
  rw [h.get?_iff hnamed]
  constructor
  · rintro ⟨first, hfirst, hsame, hanswer⟩
    obtain ⟨hlevel, key, hkey, _⟩ := Keyed.mem_firsts hfirst
    cases List.inj_on_of_nodup_map hdistinct hlevel hmem hsame
    exact ⟨Option.isSome_of_eq_some hkey, hanswer⟩
  · rintro ⟨hsome, hanswer⟩
    obtain ⟨key, hkey⟩ := Option.isSome_iff_exists.mp hsome
    obtain ⟨first, hfirst, hsame⟩ := @Keyed.exists_first _ _ _ key? (fun _ => false) _ _ key hmem hkey rfl
    have houtput : first.outputName = selection.outputName :=
      (hnamed first key hsame).trans (hnamed selection key hkey).symm
    cases List.inj_on_of_nodup_map hdistinct (Keyed.mem_firsts hfirst).1 hmem houtput
    exact ⟨selection, hfirst, rfl, hanswer⟩

omit hnamed in
/-- Objects of levels that correspond show values that correspond. -/
theorem Shown.related {relation : BoundSelection → BoundSelection → Prop} {level others : List BoundSelection}
    (h : Shown key? answer level out) (h' : Shown key? answer' others out')
    (hpairs : List.Forall₂ relation level others)
    (hrelation : ∀ a b, relation a b → key? b = key? a ∧ b.outputName = a.outputName) (key : String) :
    Option.Rel (fun value value' => ∃ a b, relation a b ∧ a.outputName = key ∧ answer a = .ok value ∧
      answer' b = .ok value') (Members.get? key out) (Members.get? key out') := by
  have hequal : Relator.BiUnique (Eq (α := String)) :=
    ⟨fun _ _ _ h h' => h.trans h'.symm, fun _ _ _ h h' => h.symm.trans h'⟩
  have hkeys (a b : BoundSelection) (hpair : relation a b) : Option.Rel Eq (key? a) (key? b) := by
    rw [(hrelation a b hpair).1]
    cases key? a with
    | none => exact .none
    | some key => exact .some rfl
  have hfirsts : List.Forall₂ relation (Keyed.firsts key? (fun _ => false) level)
      (Keyed.firsts key? (fun _ => false) others) :=
    Keyed.firsts_related hequal hkeys hpairs fun _ _ _ => rfl
  obtain ⟨shown, rfl, hshown⟩ := h
  obtain ⟨shown', rfl, hshown'⟩ := h'
  rw [Outcome.mapM_ok_iff] at hshown hshown'
  have hentries := Outcome.forall₂_comp (Outcome.forall₂_comp hshown.flip hfirsts) hshown'
  refine @Members.get?_ofList_related _ _ Eq hequal (fun key _ value value' => ∃ a b, relation a b ∧
    a.outputName = key ∧ answer a = .ok value ∧ answer' b = .ok value') (hentries.imp ?_) _ _ rfl
  rintro entry entry' ⟨b, ⟨a, hentry, hpair⟩, hentry'⟩
  obtain ⟨value, hvalue, rfl⟩ := Outcome.map_ok_iff.mp hentry
  obtain ⟨value', hvalue', rfl⟩ := Outcome.map_ok_iff.mp hentry'
  exact ⟨(hrelation a b hpair).2.symm, a, b, hpair, rfl, hvalue, hvalue'⟩

end

end BoundSelection

end GraphQuery
