import GraphQuery.Schema.TypeRef
import GraphQuery.Proofs.Text.Blank
import GraphQuery.Proofs.Outcome
import GraphQuery.Proofs.Text.Separator
import Mathlib.Data.List.Basic

/-! The grammar of type references. Reading accepts exactly the texts that the grammar derives and gives the
derived type, the written form of a type is the text without its blanks, and a written form reads back
as its type. -/

namespace GraphQuery.TypeRef

open Text

variable {input name : List Char} {type item inner : TypeRef}

/-- The texts of a type: a name, brackets around a text of the items, or a text of a type that has no mark of
its own with a mark behind it, each between any blanks. -/
inductive Derives : List Char → TypeRef → Prop where
  | named {left name right : List Char} (hleft : Blanks left) (hname : isNameChars name = true)
      (hright : Blanks right) : Derives (left ++ name ++ right) (.named (String.ofList name))
  | list {left body right : List Char} {item : TypeRef} (hleft : Blanks left) (hbody : Derives body item)
      (hright : Blanks right) : Derives (left ++ ('[' :: body ++ [']']) ++ right) (.list item)
  | nonNull {left body right : List Char} {inner : TypeRef} (hleft : Blanks left) (hbody : Derives body inner)
      (hmark : inner.isNonNull = false) (hright : Blanks right) :
      Derives (left ++ (body ++ ['!']) ++ right) (.nonNull inner)

/-- A type with names only that a schema can have, and without a mark directly behind another. -/
def WellFormed : TypeRef → Prop
  | .named name => isName name = true
  | .list item => item.WellFormed
  | .nonNull inner => inner.isNonNull = false ∧ inner.WellFormed

/-! ### Reading a trimmed text -/

theorem read?_of_nil (h : trim input = []) : read? input = none := by
  rw [read?]
  split
  · rfl
  · next htrim =>
      rw [h] at htrim
      cases htrim

theorem read?_of_cons {first : Char} {rest : List Char} (h : trim input = first :: rest) :
    read? input =
      if (first :: rest).getLast? = some '!' then
        match read? (first :: rest).dropLast with
        | some (.nonNull _) => none
        | some inner => some (.nonNull inner)
        | none => none
      else if first = '[' then
        if rest.getLast? = some ']' then (read? rest.dropLast).map .list else none
      else if isNameChars (first :: rest) then some (.named (String.ofList (first :: rest)))
      else none := by
  rw [read?]
  split
  · next htrim =>
      rw [h] at htrim
      cases htrim
  · next htrim =>
      rw [h] at htrim
      cases htrim
      rfl

/-- Blanks around a text do not matter to reading. -/
theorem read?_congr {other : List Char} (h : trim input = trim other) : read? input = read? other := by
  cases hinput : trim input with
  | nil => rw [read?_of_nil hinput, read?_of_nil (h.symm.trans hinput)]
  | cons first rest => rw [read?_of_cons hinput, read?_of_cons (h.symm.trans hinput)]

theorem read?_nonNull {first : Char} {rest : List Char} (h : trim input = first :: rest ++ ['!'])
    (hread : read? (first :: rest) = some inner) (hmark : inner.isNonNull = false) :
    read? input = some (.nonNull inner) := by
  have hlast : (first :: (rest ++ ['!'])).getLast? = some '!' := @List.getLast?_concat _ (first :: rest) '!'
  have hbody : (first :: (rest ++ ['!'])).dropLast = first :: rest := @List.dropLast_concat _ (first :: rest) '!'
  rw [List.cons_append] at h
  rw [read?_of_cons h, if_pos hlast, hbody, hread]
  cases inner with
  | nonNull _ => cases hmark
  | _ => rfl

theorem read?_list {body : List Char} (h : trim input = '[' :: body ++ [']']) :
    read? input = (read? body).map .list := by
  have hlast : ('[' :: (body ++ [']'])).getLast? = some ']' := @List.getLast?_concat _ ('[' :: body) ']'
  rw [List.cons_append] at h
  rw [read?_of_cons h, hlast, if_neg (by decide), if_pos rfl, List.getLast?_concat, if_pos rfl,
    List.dropLast_concat]

theorem isNamePart_of_mem {c : Char} (hname : isNameChars name = true) (hmem : c ∈ name) : isNamePart c = true := by
  refine Bool.of_not_eq_false fun hc => ?_
  have hisName : isName (String.ofList name) = true := by rw [isName, String.toList_ofList, hname]
  have hnotMem := notMem_of_isName hisName hc
  rw [String.toList_ofList] at hnotMem
  exact hnotMem hmem

theorem read?_named (h : trim input = name) (hname : isNameChars name = true) :
    read? input = some (.named (String.ofList name)) := by
  subst h
  cases hcs : trim input with
  | nil =>
      rw [hcs] at hname
      cases hname
  | cons first rest =>
      rw [hcs] at hname
      have hlast : (first :: rest).getLast? ≠ some '!' := by
        intro hlast
        have hpart := isNamePart_of_mem hname (List.mem_of_getLast? hlast)
        revert hpart
        decide
      have hfirst : first ≠ '[' := by
        rintro rfl
        have hpart := isNamePart_of_mem hname List.mem_cons_self
        revert hpart
        decide
      rw [read?_of_cons hcs, if_neg hlast, if_neg hfirst, if_pos hname]

/-! ### Reading accepts the grammar -/

theorem derives_of_read? (h : read? input = some type) : Derives input type := by
  fun_induction read? input generalizing type with
  | case1 | case2 | case4 | case6 | case8 => cases h
  | case3 input first rest htrim hlast inner hmark hread ih =>
      cases h
      obtain ⟨left, right, hleft, hright, hinput⟩ := exists_trim input
      have hcore : (first :: rest).dropLast ++ ['!'] = trim input := by
        rw [htrim, List.dropLast_append_getLast? '!' hlast]
      rw [hinput, ← hcore]
      refine .nonNull hleft (ih hread) ?_ hright
      cases inner with
      | nonNull inner => exact absurd rfl (hmark inner)
      | _ => rfl
  | case5 input rest hlast htrim _ ih =>
      obtain ⟨item, hitem, rfl⟩ := Option.map_eq_some_iff.mp h
      obtain ⟨left, right, hleft, hright, hinput⟩ := exists_trim input
      have hcore : '[' :: rest.dropLast ++ [']'] = trim input := by
        rw [htrim, List.cons_append, List.dropLast_append_getLast? ']' hlast]
      rw [hinput, ← hcore]
      exact .list hleft (ih hitem) hright
  | case7 input first rest htrim _ _ hname =>
      cases h
      obtain ⟨left, right, hleft, hright, hinput⟩ := exists_trim input
      rw [hinput, htrim]
      exact .named hleft hname hright

theorem exists_trimLeft_of_read? (h : read? input = some type) :
    ∃ first rest, trimLeft input = first :: rest ∧ isBlank first = false := by
  cases htrim : trimLeft input with
  | nil =>
      have hnone : read? input = none := read?_of_nil (by rw [trim, htrim]; rfl)
      rw [hnone] at h
      cases h
  | cons first rest => exact ⟨first, rest, rfl, isBlank_of_trimLeft htrim⟩

theorem read?_of_derives (h : Derives input type) : read? input = some type := by
  induction h with
  | @named left name right hleft hname hright =>
      obtain ⟨first, rest, rfl⟩ : ∃ first rest, name = first :: rest := by
        cases name with
        | nil => cases hname
        | cons first rest => exact ⟨first, rest, rfl⟩
      have hpart : ∀ c ∈ first :: rest, isBlank c = false :=
        fun c hmem => isBlank_of_isNamePart (isNamePart_of_mem hname hmem)
      have hcore := (List.dropLast_concat_getLast (List.cons_ne_nil first rest)).symm
      exact read?_named (trim_between hleft hright (hpart first List.mem_cons_self)
        (hpart _ (List.getLast_mem _)) ⟨_, hcore⟩) hname
  | @list left body right item hleft _ hright ih =>
      have htrim : trim (left ++ ('[' :: (body ++ [']'])) ++ right) = '[' :: (body ++ [']']) :=
        trim_between hleft hright (by decide) (by decide) ⟨'[' :: body, rfl⟩
      exact (read?_list htrim).trans (by rw [ih, Option.map_some])
  | @nonNull left body right inner hleft _ hmark hright ih =>
      obtain ⟨first, rest, hbody, hfirst⟩ := exists_trimLeft_of_read? ih
      obtain ⟨before, hbefore, hsplit⟩ := exists_trimLeft body
      have hread : read? (first :: rest) = some inner := by
        rw [← hbody, read?_congr (trim_trimLeft body), ih]
      refine read?_nonNull ?_ hread hmark
      have hblanks : Blanks (left ++ before) := List.forall_mem_append.mpr ⟨hleft, hbefore⟩
      have htrim : trim (left ++ before ++ (first :: (rest ++ ['!'])) ++ right) = first :: (rest ++ ['!']) :=
        trim_between hblanks hright hfirst (by decide) ⟨first :: rest, rfl⟩
      rw [hsplit, hbody]
      simpa using htrim

theorem read?_eq_some_iff : read? input = some type ↔ Derives input type :=
  ⟨derives_of_read?, read?_of_derives⟩

/-! ### Written forms -/

/-- A text without its blanks. -/
def compact (cs : List Char) : List Char :=
  cs.filter fun c => !isBlank c

theorem compact_append (front back : List Char) : compact (front ++ back) = compact front ++ compact back :=
  List.filter_append ..

theorem compact_of_blanks {cs : List Char} (h : Blanks cs) : compact cs = [] := by
  refine List.filter_eq_nil_iff.mpr fun c hmem => ?_
  rw [h c hmem]
  decide

theorem compact_between {left right : List Char} (hleft : Blanks left) (hright : Blanks right) (cs : List Char) :
    compact (left ++ cs ++ right) = compact cs := by
  rw [compact_append, compact_append, compact_of_blanks hleft, compact_of_blanks hright, List.nil_append,
    List.append_nil]

theorem compact_name (hname : isNameChars name = true) : compact name = name := by
  refine List.filter_eq_self.mpr fun c hmem => ?_
  rw [isBlank_of_isNamePart (isNamePart_of_mem hname hmem)]
  rfl

/-- The written form of a type is any text of it without the blanks. -/
theorem text_of_derives (h : Derives input type) : type.text.toList = compact input := by
  induction h with
  | named hleft hname hright =>
      rw [compact_between hleft hright, compact_name hname, text, String.toList_ofList]
  | @list _ body _ _ hleft _ hright ih =>
      rw [compact_between hleft hright, compact_append, text, String.toList_append, String.toList_append, ih]
      rfl
  | nonNull hleft _ _ hright ih =>
      rw [compact_between hleft hright, compact_append, text, String.toList_append, ih]
      rfl

theorem wellFormed_of_derives (h : Derives input type) : type.WellFormed := by
  induction h with
  | named _ hname _ => rwa [WellFormed, isName, String.toList_ofList]
  | list _ _ _ ih => exact ih
  | nonNull _ _ hmark _ ih => exact ⟨hmark, ih⟩

/-- A type is derived by its own written form. -/
theorem derives_text (h : type.WellFormed) : Derives type.text.toList type := by
  induction type with
  | named name =>
      have hname := Derives.named blanks_nil h blanks_nil
      rwa [String.ofList_toList, List.nil_append, List.append_nil] at hname
  | list item ih =>
      have hlist := Derives.list blanks_nil (ih h) blanks_nil
      rw [text, String.toList_append, String.toList_append]
      rwa [List.nil_append, List.append_nil] at hlist
  | nonNull inner ih =>
      have hinner := Derives.nonNull blanks_nil (ih h.2) h.1 blanks_nil
      rw [text, String.toList_append]
      rwa [List.nil_append, List.append_nil] at hinner

/-! ### Parsing -/

theorem parse_ok_iff {text : String} : parse text = .ok type ↔ Derives text.toList type := by
  rw [← read?_eq_some_iff, parse]
  cases read? text.toList with
  | none => simp
  | some other => simp

/-- Only texts outside the grammar fail, each with its whole text. -/
theorem parse_error_iff {text : String} {error : SchemaError} :
    parse text = .error error ↔ error = .invalidName text ∧ ∀ type, ¬Derives text.toList type := by
  simp only [← read?_eq_some_iff]
  rw [parse]
  cases read? text.toList with
  | none => simp [eq_comm]
  | some other => simp

/-- Lists, and lists that are never null. -/
def IsListed (type : TypeRef) : Prop :=
  ∃ item, type = .list item ∨ type = .nonNull (.list item)

theorem typeName_ofTypeRef (type : TypeRef) : (Target.ofTypeRef type).typeName = type.innermost := by
  cases type <;> rfl

theorem isList_ofTypeRef_iff : (Target.ofTypeRef type).isList = true ↔ type.IsListed := by
  cases type with
  | named name => simp [Target.ofTypeRef, IsListed]
  | list item => simp [Target.ofTypeRef, IsListed]
  | nonNull inner => cases inner <;> simp [Target.ofTypeRef, IsListed, isList]

theorem target_parse_ok_iff {text : String} {target : Target} :
    Target.parse text = .ok target ↔
      ∃ type, Derives text.toList type ∧ target.typeName = type.innermost ∧
        (target.isList = true ↔ type.IsListed) := by
  have htarget : ∀ type, Target.ofTypeRef type = target ↔
      target.typeName = type.innermost ∧ (target.isList = true ↔ type.IsListed) := by
    intro type
    rw [← typeName_ofTypeRef, ← isList_ofTypeRef_iff, ← Bool.eq_iff_iff, eq_comm]
    cases target
    cases Target.ofTypeRef type
    rw [Target.mk.injEq]
  rw [Target.parse, Outcome.map_ok_iff]
  simp only [parse_ok_iff, htarget]

/-- **Type references parse exactly their grammar and print back.** A text parses to a type exactly if the grammar
derives it, and the written form of the type is then the text without its blanks; any other text
fails as a whole. A written form parses to its type exactly if the type has valid names only and no
mark directly behind another. As the type of a field the same texts are accepted, for the innermost
name and for a list exactly if the outermost form, a mark apart, is one. -/
theorem parse_grammar (text : String) :
    (∀ type, parse text = .ok type ↔ Derives text.toList type) ∧
    (∀ type, parse text = .ok type → type.text.toList = compact text.toList) ∧
    (∀ error, parse text = .error error ↔ error = .invalidName text ∧ ∀ type, ¬Derives text.toList type) ∧
    (∀ type : TypeRef, parse type.text = .ok type ↔ type.WellFormed) ∧
    (∀ target, Target.parse text = .ok target ↔
      ∃ type, Derives text.toList type ∧ target.typeName = type.innermost ∧
        (target.isList = true ↔ type.IsListed)) ∧
    ∀ error, Target.parse text = .error error ↔
      error = .invalidName text ∧ ∀ type, ¬Derives text.toList type := by
  refine ⟨fun type => parse_ok_iff, fun type h => text_of_derives (parse_ok_iff.mp h), fun error => parse_error_iff,
    fun type => ⟨fun h => wellFormed_of_derives (parse_ok_iff.mp h), fun h => parse_ok_iff.mpr (derives_text h)⟩,
    fun target => target_parse_ok_iff, fun error => ?_⟩
  rw [Target.parse, Outcome.map_error_iff, parse_error_iff]

/-- A reference with blanks around its parts, and one that lacks a bracket. -/
theorem padded_reference_parsed :
    parse " [ ID! ] !" = .ok (.nonNull (.list (.nonNull (.named "ID")))) ∧
      (TypeRef.nonNull (.list (.nonNull (.named "ID")))).text.toList = compact " [ ID! ] !".toList ∧
      (∃ type, Derives " [ ID! ] !".toList type ∧ "ID" = type.innermost ∧ (true = true ↔ type.IsListed)) ∧
      ∀ type, ¬Derives "[ID !".toList type := by
  have hread : read? " [ ID! ] !".toList = some (.nonNull (.list (.nonNull (.named "ID")))) := by decide +kernel
  have hopen : read? "[ID !".toList = none := by decide +kernel
  have hparse : parse " [ ID! ] !" = .ok (.nonNull (.list (.nonNull (.named "ID")))) := by rw [parse, hread]
  have hfail : parse "[ID !" = .error (.invalidName "[ID !") := by rw [parse, hopen]
  obtain ⟨_, hwritten, _, _, htarget, _⟩ := parse_grammar " [ ID! ] !"
  refine ⟨hparse, hwritten _ hparse, (htarget ⟨"ID", true⟩).mp ?_, ((parse_grammar "[ID !").2.2.1 _ |>.mp hfail).2⟩
  rw [Target.parse, hparse]
  rfl

end GraphQuery.TypeRef
