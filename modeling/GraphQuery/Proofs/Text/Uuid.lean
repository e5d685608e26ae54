import GraphQuery.Text.Uuid
import Mathlib.Algebra.GroupWithZero.Nat

/-! The written spelling of an identifier is a spelling of the same identifier: its groups are digits in lower
case, which reading keeps as they are, and nothing in it looks like a mark or a brace. -/

namespace GraphQuery.Text.Uuid

variable {count : Nat} {counts : List Nat} {input rest digits : List Char} {c : Char}

/-- Hexadecimal digits in lower case. -/
def LowerHex (digits : List Char) : Prop :=
  ∀ c ∈ digits, isHexDigit c = true ∧ c.toLower = c

theorem toNat_lt_of_isHexDigit (h : isHexDigit c = true) : c.toNat < 103 := by
  simp only [isHexDigit, Char.isDigit, Bool.or_eq_true, Bool.and_eq_true, decide_eq_true_eq, Char.le_def,
    UInt32.le_iff_toNat_le] at h
  rcases h with (⟨_, h⟩ | ⟨_, h⟩) | ⟨_, h⟩ <;> exact Nat.lt_of_le_of_lt h (by decide)

theorem toLower_isHexDigit (h : isHexDigit c = true) :
    isHexDigit c.toLower = true ∧ c.toLower.toLower = c.toLower := by
  have hall : ∀ n < 103, isHexDigit (Char.ofNat n) = true →
      isHexDigit (Char.ofNat n).toLower = true ∧ (Char.ofNat n).toLower.toLower = (Char.ofNat n).toLower := by
    decide
  have hc := hall c.toNat (toNat_lt_of_isHexDigit h)
  rw [Char.ofNat_toNat] at hc
  exact hc h

theorem lowerHex_take (h : LowerHex digits) (count : Nat) : LowerHex (digits.take count) :=
  fun c hmem => h c (List.mem_of_mem_take hmem)

theorem lowerHex_drop (h : LowerHex digits) (count : Nat) : LowerHex (digits.drop count) :=
  fun c hmem => h c (List.mem_of_mem_drop hmem)

/-! ### Groups of digits -/

theorem readGroup_ok (h : readGroup count input = some (digits, rest)) :
    digits.length = count ∧ LowerHex digits := by
  simp only [readGroup] at h
  split at h
  · next hcount =>
      cases h
      refine ⟨by rw [List.length_map]; exact hcount.1, fun c hmem => ?_⟩
      obtain ⟨raw, hraw, rfl⟩ := List.mem_map.mp hmem
      exact toLower_isHexDigit (List.all_eq_true.mp hcount.2 raw hraw)
  · cases h

/-- Digits in lower case are read as they are. -/
theorem readGroup_append (hlength : digits.length = count) (hdigits : LowerHex digits) (rest : List Char) :
    readGroup count (digits ++ rest) = some (digits, rest) := by
  have hlower : digits.map Char.toLower = digits :=
    (List.map_congr_left fun c hmem => (hdigits c hmem).2).trans (List.map_id digits)
  have hall : digits.all isHexDigit = true := List.all_eq_true.mpr fun c hmem => (hdigits c hmem).1
  subst hlength
  simp only [readGroup, List.take_left, List.drop_left, hlower, hall, and_self, if_true]

theorem readGroups_ok (hcounts : counts ≠ []) (h : readGroups counts input = some digits) :
    digits.length = counts.sum ∧ LowerHex digits := by
  fun_induction readGroups counts input generalizing digits with
  | case1 => exact absurd rfl hcounts
  | case2 count input read hread =>
      cases h
      obtain ⟨hlength, hlower⟩ := readGroup_ok hread
      exact ⟨by rw [hlength, List.sum_singleton], hlower⟩
  | case3 | case5 => cases h
  | case4 count counts input hmore read tail hread ih =>
      obtain ⟨others, hothers, rfl⟩ := Option.map_eq_some_iff.mp h
      obtain ⟨hlength, hlower⟩ := readGroup_ok hread
      obtain ⟨hlengths, hlowers⟩ := ih hmore hothers
      refine ⟨by rw [List.length_append, hlength, hlengths, List.sum_cons], ?_⟩
      exact List.forall_mem_append.mpr ⟨hlower, hlowers⟩

/-- Digits in lower case are read back from their groups. -/
theorem readGroups_hyphenate (hcounts : counts ≠ []) (hlength : digits.length = counts.sum)
    (hdigits : LowerHex digits) : readGroups counts (hyphenate counts digits) = some digits := by
  fun_induction hyphenate counts digits with
  | case1 => exact absurd rfl hcounts
  | case2 count digits =>
      have hwhole : digits.take count = digits := List.take_of_length_le (by simp [hlength])
      have hread := readGroup_append (by simpa using hlength) hdigits []
      rw [List.append_nil] at hread
      rw [hwhole, readGroups, hread]
  | case3 count counts digits hmore ih =>
      rw [List.sum_cons] at hlength
      have htake : (digits.take count).length = count := by
        rw [List.length_take]
        omega
      have hdrop : (digits.drop count).length = counts.sum := by
        rw [List.length_drop]
        omega
      rw [readGroups, readGroup_append htake (lowerHex_take hdigits count)]
      · simp only [ih hmore hdrop (lowerHex_drop hdigits count), Option.map_some, List.take_append_drop]
      · exact hmore

/-! ### The written spelling -/

/-- The written spelling of so many digits is not all digits. -/
theorem readGroups_bare (hlength : digits.length = 32) : readGroups [32] (hyphenate groups digits) = none := by
  have hfirst : (digits.take 8).length = 8 := by
    rw [List.length_take]
    omega
  obtain ⟨tail, htail⟩ : ∃ tail, hyphenate groups digits = digits.take 8 ++ '-' :: tail := ⟨_, rfl⟩
  have hmark : '-' ∈ (hyphenate groups digits).take 32 := by
    rw [htail, List.take_append, hfirst]
    exact List.mem_append_right _ List.mem_cons_self
  have hnone : readGroup 32 (hyphenate groups digits) = none := by
    refine if_neg fun h => ?_
    have hhyphen := List.all_eq_true.mp h.2 '-' hmark
    revert hhyphen
    decide
  rw [readGroups, hnone]

/-- The written spelling stands behind no mark and in no braces. -/
theorem unwrapped_hyphenate (hlength : digits.length = 32) (hdigits : LowerHex digits) :
    unwrapped (hyphenate groups digits) = hyphenate groups digits := by
  obtain ⟨first, rest, rfl⟩ := List.exists_cons_of_length_pos (by omega : 0 < digits.length)
  obtain ⟨hhex, hlower⟩ := hdigits first List.mem_cons_self
  obtain ⟨tail, htail⟩ : ∃ tail, hyphenate groups (first :: rest) = first :: tail := ⟨_, rfl⟩
  have hmark : ((first :: tail).take mark.length).map Char.toLower ≠ mark := fun h => by
    have hu : first.toLower = 'u' := (List.cons.inj h).1
    rw [hlower] at hu
    subst hu
    revert hhex
    decide
  rw [htail, unwrapped, if_neg hmark]
  intro _ hbrace
  cases hbrace
  revert hhex
  decide

theorem digits?_ok (h : digits? input = some digits) : digits.length = 32 ∧ LowerHex digits := by
  rcases Option.or_eq_some_iff.mp h with hbare | ⟨_, hgroups⟩
  · exact readGroups_ok (List.cons_ne_nil _ _) hbare
  · exact readGroups_ok (List.cons_ne_nil _ _) hgroups

theorem digits?_hyphenate (hlength : digits.length = 32) (hdigits : LowerHex digits) :
    digits? (hyphenate groups digits) = some digits := by
  rw [digits?, readGroups_bare hlength, Option.none_or, unwrapped_hyphenate hlength hdigits]
  exact readGroups_hyphenate (List.cons_ne_nil _ _) hlength hdigits

/-- The written spelling of an identifier is its own written spelling. -/
theorem normalize?_of_normalize? {text written : String} (h : normalize? text = some written) :
    normalize? written = some written := by
  obtain ⟨digits, hdigits, rfl⟩ := Option.map_eq_some_iff.mp h
  obtain ⟨hlength, hlower⟩ := digits?_ok hdigits
  rw [normalize?, String.toList_ofList, digits?_hyphenate hlength hlower, Option.map_some]

end GraphQuery.Text.Uuid
