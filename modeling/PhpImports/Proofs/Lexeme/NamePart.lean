import PhpImports.Proofs.Lexeme.Kind
import PhpImports.Proofs.Import.Path

/-!
# The name parts that a text is cut into

A name part consists of label characters and separators. Inside it no two separators meet, since
each separator of a name has a label after it. It starts with a separator if it is fully qualified,
and one that ends with a separator is nothing else (`isNamePart_of_mem_lex`). Which labels a name
part consists of is not said here.
-/

namespace PhpImports

/-- The characters that names are made of. -/
def isNameChar (c : Char) : Bool :=
  isLabelChar c || c = separator

/-- What the separators of a name part of this kind allow its text to be. -/
structure IsNamePart (kind : TokenKind) (text : Text) : Prop where
  ne_nil : text ≠ []
  chars : ∀ c ∈ text, isNameChar c = true
  single : ¬ text.HasDouble
  head : text.head? = some separator ↔ kind = .nsSeparator ∨ kind = .nameFullyQualified
  last : text.getLast? = some separator ↔ kind = .nsSeparator
  lone : kind = .nsSeparator → text = [separator]

theorem isLabelChar_separator : isLabelChar separator = false := by decide

theorem isLabelStart_separator : isLabelStart separator = false := by decide

namespace Text

theorem continuesName_of_startsLabel {s : Text} (h : s.startsLabel = true) :
    s.continuesName = true := by
  cases s with
  | nil => cases h
  | cons c r =>
    have hc : isLabelStart c = true := h
    simp [continuesName, isLabelChar_of_isLabelStart hc]

theorem startsLabel_of_continuesName {s : Text} (h : continuesName (separator :: s) = true) :
    s.startsLabel = true := by
  simpa [continuesName, isLabelChar_separator] using h

theorem isNameChar_of_continuesName {c : Char} {r : Text} (h : continuesName (c :: r) = true) :
    isNameChar c = true := by
  rw [continuesName, Bool.or_eq_true, Bool.and_eq_true] at h
  rw [isNameChar, Bool.or_eq_true]
  exact h.imp_right And.left

theorem startsLabel_append {s t : Text} (hs : s ≠ []) : (s ++ t).startsLabel = s.startsLabel := by
  cases s with
  | nil => exact absurd rfl hs
  | cons c r => rfl

end Text

namespace Lexeme

theorem nameRun_cons (c : Char) (r : Text) :
    nameRun (c :: r) = if Text.continuesName (c :: r) then (c :: (nameRun r).1, (nameRun r).2)
      else ([], c :: r) := by
  rw [nameRun, Text.breakAt_cons]
  cases Text.continuesName (c :: r) <;> rfl

theorem nameRun_cons_of_label {c : Char} {r : Text} (h : isLabelChar c = true) :
    nameRun (c :: r) = (c :: (nameRun r).1, (nameRun r).2) := by
  rw [nameRun_cons, if_pos (by simp [Text.continuesName, h])]

theorem nameRun_separator {r : Text} (h : Text.startsLabel r = true) :
    nameRun (separator :: r) = (separator :: (nameRun r).1, (nameRun r).2) := by
  rw [nameRun_cons, if_pos (by simp [Text.continuesName, h])]

/-- In a name, a label goes on after every separator. -/
theorem startsLabel_of_nameRun {s a b : Text} (h : (nameRun s).1 = a ++ separator :: b) :
    b.startsLabel = true := by
  have hbefore := Text.breakAt_before _ s h
  simp only [Bool.not_eq_eq_eq_not, Bool.not_false] at hbefore
  have hlabel : Text.startsLabel (b ++ (nameRun s).2) = true :=
    Text.startsLabel_of_continuesName hbefore
  by_cases hb : b = []
  · subst hb
    rcases Text.breakAt_stop (fun t => !Text.continuesName t) s with hnil | hstop
    · rw [nameRun, hnil] at hlabel
      cases hlabel
    · rw [nameRun, List.nil_append] at hlabel
      rw [Text.continuesName_of_startsLabel hlabel] at hstop
      cases hstop
  · rwa [Text.startsLabel_append hb] at hlabel

theorem not_hasDouble_nameRun (s : Text) : ¬ (nameRun s).1.HasDouble := by
  rintro ⟨a, b, h⟩
  have hcut : (nameRun s).1 = a ++ separator :: (separator :: b) := by rw [← h]; simp
  have hlabel : isLabelStart separator = true := startsLabel_of_nameRun hcut
  rw [isLabelStart_separator] at hlabel
  cases hlabel

theorem getLast?_nameRun (s : Text) : (nameRun s).1.getLast? ≠ some separator := by
  intro h
  obtain ⟨a, ha⟩ := List.getLast?_eq_some_iff.1 h
  have hlabel := startsLabel_of_nameRun ha
  cases hlabel

theorem head?_nameRun {s : Text} (h : s.continuesName = true) : (nameRun s).1.head? = s.head? := by
  cases s with
  | nil => cases h
  | cons c r =>
    have happend := nameRun_append (c :: r)
    cases hrun : (nameRun (c :: r)).1 with
    | nil => exact absurd hrun (nameRun_ne_nil h)
    | cons d t =>
      rw [hrun] at happend
      simp only [List.cons_append, List.cons.injEq] at happend
      simp [happend.1]

theorem isNameChar_of_mem_nameRun {s : Text} : ∀ c ∈ (nameRun s).1, isNameChar c = true := by
  intro c hc
  obtain ⟨a, b, hsplit⟩ := List.append_of_mem hc
  have hbefore := Text.breakAt_before _ s hsplit
  simp only [Bool.not_eq_eq_eq_not, Bool.not_false] at hbefore
  exact Text.isNameChar_of_continuesName hbefore

theorem isNamePart_nameRun {kind : TokenKind} {s : Text} (h : s.continuesName = true)
    (hhead : s.head? = some separator ↔ kind = .nameFullyQualified) (hkind : kind ≠ .nsSeparator) :
    IsNamePart kind (nameRun s).1 where
  ne_nil := by
    intro hnil
    have hh := head?_nameRun h
    rw [hnil] at hh
    cases s with
    | nil => cases h
    | cons c r => simp at hh
  chars := isNameChar_of_mem_nameRun
  single := not_hasDouble_nameRun s
  head := by
    rw [head?_nameRun h, hhead]
    simp [hkind]
  last := ⟨fun hl => absurd hl (getLast?_nameRun s), fun hk => absurd hk hkind⟩
  lone := fun hk => absurd hk hkind

theorem nameKind_ne (afterAccess : Bool) (name : Text) :
    nameKind afterAccess name ≠ .nsSeparator ∧ nameKind afterAccess name ≠ .nameFullyQualified := by
  have hkinds : ∀ kind ∈ nameKinds, kind ≠ .nsSeparator ∧ kind ≠ .nameFullyQualified := by decide
  exact hkinds _ (nameKind_mem afterAccess name)

theorem isNamePart_name {afterAccess : Bool} {c : Char} {r : Text} (h : isLabelStart c = true) :
    IsNamePart (name afterAccess (c :: r)).1.kind (name afterAccess (c :: r)).1.text := by
  have hkind := nameKind_ne afterAccess (nameRun (c :: r)).1
  have hname : Text.continuesName (c :: r) = true := Text.continuesName_of_startsLabel h
  refine isNamePart_nameRun hname ?_ hkind.1
  constructor
  · intro hc
    obtain rfl : c = separator := Option.some.inj hc
    rw [isLabelStart_separator] at h
    cases h
  · exact fun hk => absurd hk hkind.2

theorem isNamePart_fullyQualifiedName {r : Text} (h : Text.startsLabel r = true) :
    IsNamePart .nameFullyQualified (fullyQualifiedName (separator :: r)).1.text := by
  have hname : Text.continuesName (separator :: r) = true := by simp [Text.continuesName, h]
  exact isNamePart_nameRun hname (by simp) (by decide)

theorem isNamePart_separator : IsNamePart .nsSeparator [separator] where
  ne_nil := by simp
  chars := List.forall_mem_singleton.2 rfl
  single := by decide
  head := by simp
  last := by simp
  lone := fun _ => rfl

/-- In code, whatever has the kind of a name part has the text of one. -/
theorem isNamePart_ofCode (afterAccess : Bool) (c : Char) (r : Text)
    (h : (ofCode afterAccess c r).1.kind.isNamePart = true) :
    IsNamePart (ofCode afterAccess c r).1.kind (ofCode afterAccess c r).1.text := by
  have hplain : ∀ kind ∈ plainKinds, kind.isNamePart = false := by decide
  rcases ofCode_cases afterAccess c r with ⟨hc, heq⟩ | ⟨rfl, heq⟩ | hkind
  · rw [heq]
    exact isNamePart_name hc
  · rw [heq]
    split
    · next hr => exact isNamePart_fullyQualifiedName hr
    · exact isNamePart_separator
  · rw [hplain _ (List.contains_iff_mem.1 hkind)] at h
    cases h

theorem isNamePart_ofHtml (shortTags : Bool) (s : Text) :
    (ofHtml shortTags s).1.kind.isNamePart = false := by
  rw [ofHtml]
  split
  · next kind n h =>
    have hkind : kind = .openTag ∨ kind = .openTagWithEcho := openTag?_kind h
    rcases hkind with rfl | rfl <;> rfl
  · rfl

theorem isNamePart_of_mem_readAll {shortTags : Bool} {m : Mode} {s : Text} :
    ∀ l ∈ readAll shortTags m s, l.kind.isNamePart = true → IsNamePart l.kind l.text := by
  fun_induction readAll shortTags m s with
  | case1 => intro l hl; cases hl
  | case2 m c r x ih =>
    intro l hl hpart
    rcases List.mem_cons.1 hl with rfl | hl
    · cases m with
      | html =>
        rw [show x = ofHtml shortTags (c :: r) from rfl, isNamePart_ofHtml] at hpart
        cases hpart
      | code afterAccess => exact isNamePart_ofCode afterAccess c r hpart
    · exact ih l hl hpart

end Lexeme

theorem Lexeme.mem_of_mem_place {start : Nat} {ls : List Lexeme} {p : Lexeme.Placed}
    (h : p ∈ place start ls) : p.lexeme ∈ ls := by
  induction ls generalizing start with
  | nil => cases h
  | cons l ls ih =>
    rcases List.mem_cons.1 h with rfl | h
    · exact List.mem_cons_self
    · exact List.mem_cons_of_mem l (ih h)

/-- The name parts among the pieces of a text. -/
theorem isNamePart_of_mem_lex {shortTags : Bool} {s : Text} {p : Piece}
    (h : p ∈ (s.lex shortTags).pieces) (hpart : p.kind.isNamePart = true) :
    IsNamePart p.kind p.text := by
  obtain ⟨q, hq, rfl⟩ := List.mem_map.1 h
  exact Lexeme.isNamePart_of_mem_readAll q.lexeme (Lexeme.mem_of_mem_place hq) hpart

end PhpImports
