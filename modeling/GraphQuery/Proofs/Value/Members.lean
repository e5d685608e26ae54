import GraphQuery.Proofs.Keyed
import GraphQuery.Value.Basic

/-! Objects of entries. Entries with keys of their own can all be read back, whatever order the members
of the object have. -/

namespace GraphQuery.Members

variable {entries others : List (String × Value)}

/-- Inserting takes the key and no other one. -/
theorem isSome_insert (name : String) (value : Value) (members : Members) :
    (fun key => (get? key (insert name value members)).isSome) =
      fun key => decide (key = name) || (get? key members).isSome := by
  funext key
  rw [get?_insert]
  by_cases heq : key = name <;> simp [heq]

/-- The member of an object to which entries are added one after the other. -/
theorem get?_insertAll (h : (entries.map Prod.fst).Nodup) (key : String) (members : Members) :
    get? key (entries.foldl (fun out entry => insert entry.1 entry.2 out) members) =
      (entries.lookup key).or (get? key members) := by
  induction entries generalizing members with
  | nil => rfl
  | cons entry rest ih =>
      obtain ⟨name, value⟩ := entry
      obtain ⟨hnew, hrest⟩ := List.nodup_cons.mp h
      rw [List.foldl_cons, ih hrest, get?_insert, Keyed.lookup_entry]
      by_cases hkey : key = name
      · subst hkey
        have hnone : rest.lookup key = none := by
          rw [List.lookup_eq_none_iff]
          intro other hother
          have hne : key ≠ other.1 := by
            rintro rfl
            exact hnew (List.mem_map.mpr ⟨other, hother, rfl⟩)
          simp [hne]
        rw [hnone, if_pos rfl, if_pos rfl]
        rfl
      · rw [if_neg hkey, if_neg hkey]

theorem get?_ofList (h : (entries.map Prod.fst).Nodup) (key : String) :
    get? key (ofList entries) = entries.lookup key := by
  rw [ofList, get?_insertAll h]
  exact Option.or_none

theorem lookup_map {α : Type} (name : α → String) (value : α → Value) (items : List α) (key : String) :
    (items.map fun item => (name item, value item)).lookup key =
      (items.find? fun item => key == name item).map value := by
  induction items with
  | nil => rfl
  | cons item rest ih =>
      rw [List.map_cons, Keyed.lookup_entry, List.find?_cons, ih]
      by_cases hkey : key = name item
      · simp [hkey]
      · rw [if_neg hkey, beq_eq_false_iff_ne.mpr hkey]

theorem get?_of_mem (h : (entries.map Prod.fst).Nodup) {key : String} {value : Value}
    (hmem : (key, value) ∈ entries) : get? key (ofList entries) = some value := by
  rw [get?_ofList h, Keyed.lookup_of_mem h hmem]

theorem isSome_get?_ofList (h : (entries.map Prod.fst).Nodup) (key : String) :
    (get? key (ofList entries)).isSome = true ↔ key ∈ entries.map Prod.fst := by
  rw [get?_ofList h, List.lookup_isSome_iff]
  simp only [beq_iff_eq, List.mem_map, @eq_comm _ key]

/-- Entries with keys of their own are those that their object holds, in the order of the keys. -/
theorem eq_map_lookup (h : (entries.map Prod.fst).Nodup) :
    entries = (entries.map Prod.fst).map fun key => (key, (get? key (ofList entries)).getD .null) := by
  rw [List.map_map]
  refine (List.map_id entries).symm.trans (List.map_congr_left fun entry hmem => ?_)
  obtain ⟨key, value⟩ := entry
  simp only [id, Function.comp, get?_of_mem h hmem, Option.getD_some]

/-- The last entry of a key is the member of an object to which entries are added one after the other. -/
theorem get?_insertAll_reverse (key : String) (members : Members) :
    get? key (entries.foldl (fun out entry => insert entry.1 entry.2 out) members) =
      (entries.reverse.lookup key).or (get? key members) := by
  induction entries generalizing members with
  | nil => rfl
  | cons entry rest ih =>
      obtain ⟨name, value⟩ := entry
      rw [List.foldl_cons, ih, get?_insert, List.reverse_cons, List.lookup_append, Option.or_assoc]
      refine congrArg (Option.or _) ?_
      rw [Keyed.lookup_entry]
      split <;> rfl

theorem get?_ofList_of_notMem {key : String} (h : key ∉ entries.map Prod.fst) : get? key (ofList entries) = none := by
  rw [ofList, get?_insertAll_reverse, get?, Option.or_none, List.lookup_eq_none_iff]
  intro entry hmem
  rw [bne_iff_ne]
  rintro rfl
  exact h (List.mem_map_of_mem (List.mem_reverse.mp hmem))

/-- An entry with a key of its own in front of others. -/
theorem get?_ofList_cons {key : String} (hnew : key ∉ entries.map Prod.fst) (value : Value) (other : String) :
    get? other (ofList ((key, value) :: entries)) = if other = key then some value else get? other (ofList entries) := by
  by_cases hother : other = key
  · have hnone := get?_ofList_of_notMem hnew
    rw [ofList, get?_insertAll_reverse, get?, Option.or_none] at hnone
    rw [ofList, List.foldl_cons, get?_insertAll_reverse, get?_insert, hother, hnone, if_pos rfl, if_pos rfl,
      Option.none_or]
  · rw [ofList, List.foldl_cons, get?_insertAll_reverse, get?_insert, if_neg hother, if_neg hother, ofList,
      get?_insertAll_reverse]

/-- Objects of entries that correspond have members that correspond. -/
theorem get?_ofList_related {pairs : String → String → Prop} (hpairs : Relator.BiUnique pairs)
    {relation : String → String → Value → Value → Prop}
    (h : List.Forall₂ (fun a b => pairs a.1 b.1 ∧ relation a.1 b.1 a.2 b.2) entries others)
    {key key' : String} (hkey : pairs key key') :
    Option.Rel (relation key key') (get? key (ofList entries)) (get? key' (ofList others)) := by
  rw [ofList, ofList, get?_insertAll_reverse, get?_insertAll_reverse, get?, get?, Option.or_none,
    Option.or_none]
  exact Keyed.lookup_related hpairs (List.rel_reverse h) hkey

theorem ofList_injective (hkeys : entries.map Prod.fst = others.map Prod.fst)
    (hnodup : (entries.map Prod.fst).Nodup) (h : ofList entries = ofList others) :
    entries = others := by
  rw [eq_map_lookup hnodup, eq_map_lookup (hkeys ▸ hnodup : (others.map Prod.fst).Nodup), hkeys, h]

theorem sizeOf_lt_of_get? {key : String} {value : Value} {members : Members} (h : get? key members = some value) :
    sizeOf value < sizeOf members := by
  induction members with
  | nil => cases h
  | cons entry rest ih =>
      obtain ⟨name, old⟩ := entry
      rw [get?] at h
      simp only [List.cons.sizeOf_spec, Prod.mk.sizeOf_spec]
      split at h
      · cases h
        omega
      · have hrest := ih h
        omega

end GraphQuery.Members

/-- A member is smaller than its object. -/
theorem GraphQuery.Value.sizeOf_lt_of_get? {key : String} {value object : Value}
    (h : object.get? key = some value) : sizeOf value < sizeOf object := by
  cases object with
  | object members =>
      have hmember := Members.sizeOf_lt_of_get? h
      rw [Value.object.sizeOf_spec]
      omega
  | _ => cases h
