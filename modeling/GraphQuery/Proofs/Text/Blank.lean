import GraphQuery.Text.Blank
import GraphQuery.Text.Name

/-! Trimming takes the blanks off both ends of a text and nothing else: blanks that are put around a text do
not change what is left of it, and a text with no blank at either end is left whole. -/

namespace GraphQuery.Text

variable {c : Char} {cs left right : List Char}

/-- Nothing but blanks. -/
def Blanks (cs : List Char) : Prop :=
  ∀ c ∈ cs, isBlank c = true

theorem blanks_nil : Blanks [] :=
  fun _ hmem => absurd hmem List.not_mem_nil

theorem blanks_takeWhile (cs : List Char) : Blanks (cs.takeWhile isBlank) :=
  List.all_eq_true.mp List.all_takeWhile

theorem trimLeft_append (h : Blanks left) (cs : List Char) : trimLeft (left ++ cs) = trimLeft cs :=
  List.dropWhile_append_of_pos h

theorem trimLeft_cons (h : isBlank c = false) (cs : List Char) : trimLeft (c :: cs) = c :: cs :=
  List.dropWhile_cons_of_neg (by rw [h]; decide)

theorem trimRight_append (h : Blanks right) (cs : List Char) : trimRight (cs ++ right) = trimRight cs := by
  have hreverse : Blanks right.reverse := fun c hmem => h c (List.mem_reverse.mp hmem)
  rw [trimRight, trimRight, List.reverse_append, List.dropWhile_append_of_pos hreverse]

theorem trimRight_concat (h : isBlank c = false) (cs : List Char) : trimRight (cs ++ [c]) = cs ++ [c] := by
  rw [trimRight, List.reverse_append, List.reverse_singleton, List.singleton_append,
    List.dropWhile_cons_of_neg (by rw [h]; decide), List.reverse_cons, List.reverse_reverse]

theorem exists_trimLeft (cs : List Char) : ∃ left, Blanks left ∧ cs = left ++ trimLeft cs :=
  ⟨_, blanks_takeWhile cs, List.takeWhile_append_dropWhile.symm⟩

theorem exists_trimRight (cs : List Char) : ∃ right, Blanks right ∧ cs = trimRight cs ++ right := by
  refine ⟨(cs.reverse.takeWhile isBlank).reverse, ?_, ?_⟩
  · intro c hmem
    exact blanks_takeWhile cs.reverse c (List.mem_reverse.mp hmem)
  · rw [trimRight, ← List.reverse_append, List.takeWhile_append_dropWhile, List.reverse_reverse]

/-- A text is what trimming leaves of it, between blanks. -/
theorem exists_trim (cs : List Char) :
    ∃ left right, Blanks left ∧ Blanks right ∧ cs = left ++ trim cs ++ right := by
  obtain ⟨left, hleft, hcs⟩ := exists_trimLeft cs
  obtain ⟨right, hright, htrimmed⟩ := exists_trimRight (trimLeft cs)
  refine ⟨left, right, hleft, hright, ?_⟩
  rw [trim, List.append_assoc, ← htrimmed, ← hcs]

theorem trim_append (h : Blanks left) (cs : List Char) : trim (left ++ cs) = trim cs := by
  rw [trim, trimLeft_append h, trim]

theorem trim_trimLeft (cs : List Char) : trim (trimLeft cs) = trim cs := by
  obtain ⟨left, hleft, hcs⟩ := exists_trimLeft cs
  calc trim (trimLeft cs) = trim (left ++ trimLeft cs) := (trim_append hleft _).symm
    _ = trim cs := by rw [← hcs]

/-- What trimming leaves starts with no blank. -/
theorem isBlank_of_trimLeft {rest : List Char} (h : trimLeft cs = c :: rest) : isBlank c = false := by
  have hhead := List.head?_dropWhile_not isBlank cs
  rw [← trimLeft, h] at hhead
  simpa using hhead

/-- A text that neither starts nor ends with a blank is left whole. -/
theorem trim_between {last : Char} (hleft : Blanks left) (hright : Blanks right) (hfirst : isBlank c = false)
    (hlast : isBlank last = false) (hcore : ∃ front, c :: cs = front ++ [last]) :
    trim (left ++ (c :: cs) ++ right) = c :: cs := by
  obtain ⟨front, hcore⟩ := hcore
  rw [List.append_assoc, trim_append hleft, trim, List.cons_append, trimLeft_cons hfirst, ← List.cons_append,
    trimRight_append hright, hcore, trimRight_concat hlast]

/-- The characters of names lie between the digits and the small letters, where there are no blanks. -/
theorem isBlank_of_isNamePart (h : isNamePart c = true) : isBlank c = false := by
  have hbounds : 48 ≤ c.toNat ∧ c.toNat ≤ 122 := by
    delta isNamePart Char.isAlphanum Char.isAlpha Char.isUpper Char.isLower Char.isDigit at h
    simp only [Bool.or_eq_true, Bool.and_eq_true, decide_eq_true_eq, beq_iff_eq, UInt32.le_iff_toNat_le,
      ge_iff_le] at h
    rcases h with ((⟨hlow, hhigh⟩ | ⟨hlow, hhigh⟩) | ⟨hlow, hhigh⟩) | rfl
    · exact ⟨Nat.le_trans (by decide) hlow, Nat.le_trans hhigh (by decide)⟩
    · exact ⟨Nat.le_trans (by decide) hlow, hhigh⟩
    · exact ⟨hlow, Nat.le_trans hhigh (by decide)⟩
    · decide
  obtain ⟨hlow, hhigh⟩ := hbounds
  simp only [isBlank, Bool.or_eq_false_iff, Bool.and_eq_false_iff, decide_eq_false_iff_not, beq_eq_false_iff_ne]
  omega

end GraphQuery.Text
