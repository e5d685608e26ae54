import GraphQuery.Text.Name

/-! Texts put together with a separator between two parts. They can be taken apart again wherever the
separator is not in the first part, and the separators of keys are in no name. -/

namespace GraphQuery.Text

/-- Two lists parted by an element that is in neither first part are equal part by part. -/
theorem append_cons_inj {α : Type} {mark : α} {left left' right right' : List α} (h : mark ∉ left)
    (h' : mark ∉ left') (heq : left ++ mark :: right = left' ++ mark :: right') :
    left = left' ∧ right = right' := by
  induction left generalizing left' with
  | nil =>
      cases left' with
      | nil => exact ⟨rfl, (List.cons.inj heq).2⟩
      | cons first rest =>
          rw [(List.cons.inj heq).1] at h'
          exact absurd List.mem_cons_self h'
  | cons first rest ih =>
      cases left' with
      | nil =>
          rw [(List.cons.inj heq).1] at h
          exact absurd List.mem_cons_self h
      | cons first' rest' =>
          obtain ⟨rfl, htail⟩ := List.cons.inj heq
          obtain ⟨rfl, hright⟩ := ih (fun hmem => h (List.mem_cons_of_mem _ hmem))
            (fun hmem => h' (List.mem_cons_of_mem _ hmem)) htail
          exact ⟨rfl, hright⟩

variable {separator : String} {c : Char}

theorem toList_separated (hseparator : separator.toList = [c]) (left right : String) :
    (left ++ separator ++ right).toList = left.toList ++ c :: right.toList := by
  rw [String.toList_append, String.toList_append, hseparator, List.append_assoc, List.singleton_append]

theorem separated_inj (hseparator : separator.toList = [c]) {a b a' b' : String} (ha : c ∉ a.toList)
    (ha' : c ∉ a'.toList) (h : a ++ separator ++ b = a' ++ separator ++ b') : a = a' ∧ b = b' := by
  have hlist := congrArg String.toList h
  rw [toList_separated hseparator, toList_separated hseparator] at hlist
  obtain ⟨hleft, hright⟩ := append_cons_inj ha ha' hlist
  exact ⟨String.toList_injective hleft, String.toList_injective hright⟩

theorem ne_separated (hseparator : separator.toList = [c]) {name : String} (hname : c ∉ name.toList)
    (left right : String) : name ≠ left ++ separator ++ right := by
  intro h
  rw [h, toList_separated hseparator] at hname
  exact hname (List.mem_append_right _ List.mem_cons_self)

/-- A name has only the characters that names may have. -/
theorem notMem_of_isName {name : String} {c : Char} (h : isName name = true)
    (hc : isNamePart c = false) : c ∉ name.toList := by
  intro hmem
  unfold isName at h
  cases hlist : name.toList with
  | nil => rw [hlist] at hmem; cases hmem
  | cons first rest =>
      rw [hlist] at h hmem
      simp only [isNameChars, Bool.and_eq_true, List.all_eq_true] at h
      rcases List.mem_cons.mp hmem with rfl | hmem
      · have hstart : isNamePart c = true := by
          have hfirst := h.1
          simp only [isNameStart, isNamePart, Bool.or_eq_true, Char.isAlphanum] at hfirst ⊢
          exact hfirst.imp_left Or.inl
        rw [hc] at hstart
        cases hstart
      · have hpart := h.2 c hmem
        rw [hc] at hpart
        cases hpart

theorem isNamePart_point : isNamePart '.' = false := by decide

theorem isNamePart_hash : isNamePart '#' = false := by decide

end GraphQuery.Text
