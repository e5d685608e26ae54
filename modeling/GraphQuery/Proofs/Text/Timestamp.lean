import GraphQuery.Text.Timestamp
import Mathlib.Algebra.GroupWithZero.Nat

/-! Timestamps are written so that they can be read. A number of fixed width, the date, the minute of the day and
the fraction of a second are each read back from their text, so an instant is read back from its own
text, provided that its year has the four digits that a date has room for. Instants that are read lie
in such years, except at the two ends, where the offset can carry them over. -/

namespace GraphQuery.Text

/-! ### Numbers of fixed width -/

section Digits

variable {cs digits rest : List Char} {n count : Nat}

theorem ofDigits_append_zeros (cs : List Char) (count : Nat) :
    ofDigits (cs ++ List.replicate count '0') = 10 ^ count * ofDigits cs :=
  (Nat.ofDigitChars_append 0).trans Nat.ofDigitChars_replicate_zero

theorem ofDigits_cons (c : Char) (cs : List Char) :
    ofDigits (c :: cs) = 10 ^ cs.length * (c.toNat - 48) + ofDigits cs := by
  have hsplit : ofDigits (c :: cs) = 10 ^ cs.length * (10 * 0 + (c.toNat - 48)) + Nat.ofDigitChars 10 cs 0 :=
    @Nat.ofDigitChars_eq_ofDigitChars_zero cs (10 * 0 + (c.toNat - 48))
  rwa [Nat.mul_zero, Nat.zero_add] at hsplit

theorem ofDigits_lt (h : ∀ c ∈ cs, c.isDigit = true) : ofDigits cs < 10 ^ cs.length := by
  induction cs with
  | nil => decide
  | cons first rest ih =>
      obtain ⟨hfirst, hrest⟩ := List.forall_mem_cons.mp h
      have hdigit : first.toNat - 48 < 10 := by
        simp only [Char.isDigit, Bool.and_eq_true, decide_eq_true_eq, ge_iff_le, UInt32.le_iff_toNat_le] at hfirst
        have hlow : 48 ≤ first.toNat := hfirst.1
        have hhigh : first.toNat ≤ 57 := hfirst.2
        omega
      rw [ofDigits_cons, List.length_cons, Nat.pow_succ]
      calc 10 ^ rest.length * (first.toNat - 48) + ofDigits rest
          < 10 ^ rest.length * (first.toNat - 48) + 10 ^ rest.length := Nat.add_lt_add_left (ih hrest) _
        _ = 10 ^ rest.length * (first.toNat - 48 + 1) := (Nat.mul_succ _ _).symm
        _ ≤ 10 ^ rest.length * 10 := Nat.mul_le_mul_left _ hdigit

namespace Timestamp

theorem fixedNumber_ok (h : fixedNumber count cs = some (n, rest)) : n < 10 ^ count := by
  simp only [fixedNumber] at h
  split at h
  · next hdigits =>
      cases h
      have hlt := ofDigits_lt (List.all_eq_true.mp hdigits.2)
      rwa [hdigits.1] at hlt
  · cases h

theorem fixedNumber_append (hlength : digits.length = count) (hdigits : ∀ c ∈ digits, c.isDigit = true)
    (rest : List Char) : fixedNumber count (digits ++ rest) = some (ofDigits digits, rest) := by
  subst hlength
  rw [fixedNumber, List.take_left, List.drop_left]
  exact if_pos ⟨rfl, List.all_eq_true.mpr hdigits⟩

theorem fixedNumber_cons_of_not_digit {c : Char} (hcount : 0 < count) (hc : c.isDigit = false) (cs : List Char) :
    fixedNumber count (c :: cs) = none := by
  obtain ⟨more, rfl⟩ := Nat.exists_eq_add_of_lt hcount
  refine if_neg fun h => ?_
  have hdigit := List.all_eq_true.mp h.2 c (by simp)
  rw [hc] at hdigit
  cases hdigit

theorem length_padded (hcount : 0 < count) (hn : n < 10 ^ count) : (padded count n).length = count := by
  have hlength := (Nat.length_toDigits_le_iff (by decide) hcount).mpr hn
  rw [padded, List.length_append, List.length_replicate]
  omega

theorem isDigit_padded : ∀ c ∈ padded count n, c.isDigit = true := by
  intro c hmem
  rcases List.mem_append.mp hmem with hzero | hdigit
  · rw [List.eq_of_mem_replicate hzero]
    decide
  · exact Nat.isDigit_of_mem_toDigits (by decide) (by decide) hdigit

theorem ofDigits_padded (count n : Nat) : ofDigits (padded count n) = n := by
  have hzeros : ofDigits (List.replicate (count - (Nat.toDigits 10 n).length) '0') = 0 := by
    have h := ofDigits_append_zeros [] (count - (Nat.toDigits 10 n).length)
    rwa [List.nil_append] at h
  calc ofDigits (padded count n)
      = Nat.ofDigitChars 10 (Nat.toDigits 10 n) (ofDigits (List.replicate _ '0')) := Nat.ofDigitChars_append 0
    _ = Nat.ofDigitChars 10 (Nat.toDigits 10 n) 0 := by rw [hzeros]
    _ = n := Nat.ofDigitChars_ten_toDigits

/-- A number that fits a width is read back from it. -/
theorem fixedNumber_padded (hcount : 0 < count) (hn : n < 10 ^ count) (rest : List Char) :
    fixedNumber count (padded count n ++ rest) = some (n, rest) := by
  rw [fixedNumber_append (length_padded hcount hn) isDigit_padded, ofDigits_padded]

end Timestamp

end Digits

/-! ### Days -/

namespace Date

variable {d : Date}

theorem daysInMonth_bounds (year : Int) (month : Nat) :
    28 ≤ daysInMonth year month ∧ daysInMonth year month ≤ 31 := by
  unfold daysInMonth
  repeat' split
  all_goals omega

theorem isValid_iff {year : Int} {month day : Nat} : (Date.mk year month day).isValid = true ↔
    1 ≤ month ∧ month ≤ 12 ∧ 1 ≤ day ∧ day ≤ daysInMonth year month := by
  simp only [isValid, Bool.and_eq_true, decide_eq_true_eq, and_assoc]

theorem isValid_next (h : d.isValid = true) : d.next.isValid = true := by
  obtain ⟨year, month, day⟩ := d
  obtain ⟨hfirst, hlast, hday, _⟩ := isValid_iff.mp h
  have hfollowing := daysInMonth_bounds year (month + 1)
  have hjanuary := daysInMonth_bounds (year + 1) 1
  simp only [next]
  split
  · exact isValid_iff.mpr (by omega)
  · split <;> exact isValid_iff.mpr (by omega)

theorem isValid_previous (h : d.isValid = true) : d.previous.isValid = true := by
  obtain ⟨year, month, day⟩ := d
  obtain ⟨hfirst, hlast, hday, _⟩ := isValid_iff.mp h
  have hpreceding := daysInMonth_bounds year (month - 1)
  have hdecember : daysInMonth (year - 1) 12 = 31 := rfl
  simp only [previous]
  split
  · exact isValid_iff.mpr (by omega)
  · split <;> exact isValid_iff.mpr (by omega)

/-- A year that is written with four digits. -/
def FourDigits (d : Date) : Prop :=
  0 ≤ d.year ∧ d.year ≤ 9999

/-- The day after has four digits as well, or is the first one that has not. -/
theorem fourDigits_next (h : d.FourDigits) : d.next.FourDigits ∨ d.next = ⟨10000, 1, 1⟩ := by
  obtain ⟨year, month, day⟩ := d
  simp only [FourDigits] at h
  simp only [next]
  split
  · exact Or.inl h
  · split
    · exact Or.inl h
    · by_cases hlast : year = 9999
      · exact Or.inr (by rw [hlast]; rfl)
      · exact Or.inl (by simp only [FourDigits]; omega)

/-- The day before has four digits as well, or is the last one that has not. -/
theorem fourDigits_previous (h : d.FourDigits) : d.previous.FourDigits ∨ d.previous = ⟨-1, 12, 31⟩ := by
  obtain ⟨year, month, day⟩ := d
  simp only [FourDigits] at h
  simp only [previous]
  split
  · exact Or.inl h
  · split
    · exact Or.inl h
    · by_cases hfirst : year = 0
      · exact Or.inr (by rw [hfirst]; rfl)
      · exact Or.inl (by simp only [FourDigits]; omega)

end Date

namespace Timestamp

variable {input rest : List Char} {t : Timestamp} {date : Date} {minutes nanosecond : Nat} {offset : Int}

/-! ### What is read -/

/-- An instant in a day that exists, at a minute and a second of it. -/
structure WellFormed (t : Timestamp) : Prop where
  date : t.date.isValid = true
  minute : t.minute < 1440
  second : t.second ≤ 60
  nanosecond : t.nanosecond < 1000000000

theorem readDate_ok (h : readDate input = some (date, rest)) : date.isValid = true ∧ date.FourDigits := by
  simp only [readDate, Option.bind_eq_bind, Option.bind_eq_some_iff] at h
  obtain ⟨⟨year, afterYear⟩, hyear, _, _, ⟨month, _⟩, _, _, _, ⟨day, _⟩, _, h⟩ := h
  split at h
  · next hvalid =>
      cases h
      have hlt := fixedNumber_ok hyear
      exact ⟨hvalid, by simp only [Date.FourDigits]; omega⟩
  · cases h

theorem readMinutes_ok (h : readMinutes input = some (minutes, rest)) : minutes < 1440 := by
  simp only [readMinutes, Option.bind_eq_bind, Option.bind_eq_some_iff] at h
  obtain ⟨⟨hour, _⟩, _, _, _, ⟨minute, _⟩, _, h⟩ := h
  split at h
  · cases h
    omega
  · cases h

theorem readFraction_ok (h : readFraction input = some (nanosecond, rest)) : nanosecond < 1000000000 := by
  unfold readFraction at h
  split at h
  · next digits =>
      simp only at h
      split at h
      · cases h
      · cases h
        have hdigits : ∀ c ∈ (digits.takeWhile Char.isDigit).take 9 ++
            List.replicate (9 - ((digits.takeWhile Char.isDigit).take 9).length) '0', c.isDigit = true := by
          intro c hmem
          rcases List.mem_append.mp hmem with hdigit | hzero
          · exact List.all_eq_true.mp List.all_takeWhile c (List.mem_of_mem_take hdigit)
          · rw [List.eq_of_mem_replicate hzero]
            decide
        have hlt := ofDigits_lt hdigits
        rw [List.length_append, List.length_replicate] at hlt
        have hwidth : ((digits.takeWhile Char.isDigit).take 9).length ≤ 9 := List.length_take_le _ _
        rwa [Nat.add_sub_cancel' hwidth] at hlt
  · cases h
    decide

theorem readOffset_ok (h : readOffset input = some (offset, rest)) : -1440 < offset ∧ offset < 1440 := by
  unfold readOffset at h
  split at h
  case h_1 | h_2 =>
      cases h
      decide
  case h_3 | h_4 | h_5 =>
      obtain ⟨⟨minutes, _⟩, hminutes, ⟨⟩⟩ := Option.map_eq_some_iff.mp h
      have hlt := readMinutes_ok hminutes
      omega
  case h_6 => cases h

/-- The day and the minute of the day in universal time: the day exists, and its year has four digits unless the
offset has carried it over an end of these years. -/
theorem normalized_spec (hvalid : date.isValid = true) (hdigits : date.FourDigits) {shift : Int}
    (hlow : -1440 < shift) (hhigh : shift < 2880) :
    (normalized date shift).1.isValid = true ∧ (normalized date shift).2 < 1440 ∧
      ((normalized date shift).1.FourDigits ∨ (normalized date shift).1 = ⟨-1, 12, 31⟩ ∨
        (normalized date shift).1 = ⟨10000, 1, 1⟩) := by
  unfold normalized
  split
  · exact ⟨Date.isValid_previous hvalid, by simp only; omega, (Date.fourDigits_previous hdigits).imp_right Or.inl⟩
  · split
    · exact ⟨hvalid, by simp only; omega, Or.inl hdigits⟩
    · exact ⟨Date.isValid_next hvalid, by simp only; omega, (Date.fourDigits_next hdigits).imp_right Or.inr⟩

/-- An instant that a text writes is well formed, and in a year of four digits or a day next to these. -/
theorem read?_ok (h : read? input = some t) :
    t.WellFormed ∧ (t.date.FourDigits ∨ t.date = ⟨-1, 12, 31⟩ ∨ t.date = ⟨10000, 1, 1⟩) := by
  simp only [read?, Option.bind_eq_bind, Option.bind_eq_some_iff] at h
  obtain ⟨⟨date, _⟩, hdate, _, _, ⟨minutes, _⟩, hminutes, _, _, ⟨second, _⟩, _, ⟨nanosecond, _⟩, hnanosecond,
    ⟨offset, _⟩, hoffset, h⟩ := h
  split at h
  · next hsecond =>
      cases h
      obtain ⟨hvalid, hdigits⟩ := readDate_ok hdate
      have hminute := readMinutes_ok hminutes
      obtain ⟨hlow, hhigh⟩ := readOffset_ok hoffset
      have hearly : -1440 < (minutes : Int) - offset := by omega
      have hlate : (minutes : Int) - offset < 2880 := by omega
      obtain ⟨hday, hclock, hyear⟩ := normalized_spec hvalid hdigits hearly hlate
      exact ⟨⟨hday, hclock, hsecond.1, readFraction_ok hnanosecond⟩, hyear⟩
  · cases h

/-! ### What is written -/

theorem readDate_text (hvalid : date.isValid = true) (hdigits : date.FourDigits) (rest : List Char) :
    readDate (yearText date.year ++ '-' :: (padded 2 date.month ++ '-' :: (padded 2 date.day ++ rest))) =
      some (date, rest) := by
  obtain ⟨year, month, day⟩ := date
  obtain ⟨hfirst, hlast, hday, hlength⟩ := Date.isValid_iff.mp hvalid
  have hbounds := Date.daysInMonth_bounds year month
  have hyear : ((year.toNat : Nat) : Int) = year := Int.toNat_of_nonneg hdigits.1
  simp only [Date.FourDigits] at hdigits
  simp only [readDate, yearText, if_pos hdigits, Option.bind_eq_bind]
  rw [fixedNumber_padded (by decide) (by omega)]
  simp only [Option.bind_some, expect, if_true]
  rw [fixedNumber_padded (by decide) (by omega)]
  simp only [Option.bind_some, if_true]
  rw [fixedNumber_padded (by decide) (by omega)]
  simp only [Option.bind_some, hyear, hvalid, if_true]
  rfl

/-- A year with a sign in front of it is not read. -/
theorem readDate_signed (hdigits : ¬date.FourDigits) (rest : List Char) :
    readDate (yearText date.year ++ rest) = none := by
  have hyear : fixedNumber 4 (yearText date.year ++ rest) = none := by
    rw [Date.FourDigits] at hdigits
    rw [yearText, if_neg hdigits, List.cons_append]
    split
    · exact fixedNumber_cons_of_not_digit (by decide) (by decide) _
    · exact fixedNumber_cons_of_not_digit (by decide) (by decide) _
  simp only [readDate, hyear, Option.bind_eq_bind, Option.bind_none]

theorem readMinutes_text (hminutes : minutes < 1440) (rest : List Char) :
    readMinutes (padded 2 (minutes / 60) ++ ':' :: (padded 2 (minutes % 60) ++ rest)) = some (minutes, rest) := by
  simp only [readMinutes, Option.bind_eq_bind]
  rw [fixedNumber_padded (by decide) (by omega)]
  simp only [Option.bind_some, expect, if_true]
  rw [fixedNumber_padded (by decide) (by omega)]
  simp only [Option.bind_some]
  rw [if_pos (by omega), Nat.div_add_mod]
  rfl

/-- A fraction in at most nine digits counts in units of its last one. -/
theorem readFraction_padded {width n : Nat} (hwidth : 0 < width) (hnine : width ≤ 9) (hn : n < 10 ^ width)
    (rest : List Char) :
    readFraction ('.' :: (padded width n ++ '+' :: rest)) = some (10 ^ (9 - width) * n, '+' :: rest) := by
  have hlength := length_padded hwidth hn
  have htake : (padded width n ++ '+' :: rest).takeWhile Char.isDigit = padded width n := by
    rw [List.takeWhile_append_of_pos isDigit_padded, List.takeWhile_cons_of_neg (by decide), List.append_nil]
  have hdrop : (padded width n ++ '+' :: rest).dropWhile Char.isDigit = '+' :: rest := by
    rw [List.dropWhile_append_of_pos isDigit_padded, List.dropWhile_cons_of_neg (by decide)]
  have hempty : (padded width n).isEmpty = false := by
    rw [List.isEmpty_eq_false_iff, ← List.length_pos_iff, hlength]
    exact hwidth
  have hkept : (padded width n).take 9 = padded width n := List.take_of_length_le (by omega)
  simp only [readFraction, htake, hdrop, hempty, hkept, hlength, ofDigits_append_zeros, ofDigits_padded,
    Bool.false_eq_true, if_false]

theorem readFraction_text (hnanosecond : nanosecond < 1000000000) (rest : List Char) :
    readFraction (fractionText nanosecond ++ '+' :: rest) = some (nanosecond, '+' :: rest) := by
  unfold fractionText
  split
  · next hzero =>
      rw [hzero]
      rfl
  · split
    · rw [List.cons_append, readFraction_padded (by decide) (by decide) (by omega)]
      simp only [Option.some.injEq, Prod.mk.injEq, and_true]
      omega
    · split
      · rw [List.cons_append, readFraction_padded (by decide) (by decide) (by omega)]
        simp only [Option.some.injEq, Prod.mk.injEq, and_true]
        omega
      · rw [List.cons_append, readFraction_padded (by decide) (by decide) (by omega)]
        simp only [Option.some.injEq, Prod.mk.injEq, and_true]
        omega

theorem text_eq (t : Timestamp) :
    t.text = yearText t.date.year ++ '-' :: (padded 2 t.date.month ++ '-' :: (padded 2 t.date.day ++
      'T' :: (padded 2 (t.minute / 60) ++ ':' :: (padded 2 (t.minute % 60) ++ ':' :: (padded 2 t.second ++
        (fractionText t.nanosecond ++ ['+', '0', '0', ':', '0', '0'])))))) := by
  simp only [text, List.append_assoc, List.cons_append]

/-- An instant in a year of four digits is read back from its text. -/
theorem read?_text (hformed : t.WellFormed) (hdigits : t.date.FourDigits) : read? t.text = some t := by
  have hsecond : ∀ rest, fixedNumber 2 (padded 2 t.second ++ rest) = some (t.second, rest) :=
    fixedNumber_padded (by decide) (Nat.lt_of_le_of_lt hformed.second (by decide))
  have hoffset : readOffset ['+', '0', '0', ':', '0', '0'] = some (0, []) := by decide
  have hminute : normalized t.date ((t.minute : Int) - 0) = (t.date, t.minute) := by
    have hlt := hformed.minute
    rw [Int.sub_zero, normalized, if_neg (by omega), if_pos (by omega), Int.toNat_natCast]
  simp only [read?, text_eq, readDate_text hformed.date hdigits, readDivider, readMinutes_text hformed.minute, expect,
    hsecond, readFraction_text hformed.nanosecond, hoffset, hminute, Option.bind_eq_bind, Option.bind_some, if_true]
  exact if_pos ⟨hformed.second, rfl⟩

/-- The text of an instant in any other year is not read. -/
theorem read?_text_signed (hdigits : ¬t.date.FourDigits) : read? t.text = none := by
  simp only [read?, text_eq, readDate_signed hdigits, Option.bind_eq_bind, Option.bind_none]

end Timestamp

end GraphQuery.Text
