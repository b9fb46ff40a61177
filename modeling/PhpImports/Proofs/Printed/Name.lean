import PhpImports.Proofs.Lexeme.NamePart
import PhpImports.Proofs.Printed.Layout
import PhpImports.Proofs.Text.Case

/-!
# Printed words

A printed word is a reserved word in any case or a name. In front of a text that no name goes on
with, it is read as one lexeme (`Word.wording`, `Name.wording`).
-/

namespace PhpImports.Printed

structure Label where
  head : Char
  tail : Text
  isStart : isLabelStart head = true
  isTail : ∀ c ∈ tail, isLabelChar c = true

def Label.text (l : Label) : Text :=
  l.head :: l.tail

/-- Labels with single separators between them, and one in front if the name is fully qualified. A
label alone is no reserved word. -/
structure Name where
  fullyQualified : Bool
  first : Label
  rest : List Label
  unreserved : fullyQualified = false → rest = [] → Keyword.kind? first.text = none

namespace Name

/-- The labels, without a separator in front. -/
def path (n : Name) : Text :=
  n.first.text ++ n.rest.flatMap fun l => separator :: l.text

def text (n : Name) : Text :=
  if n.fullyQualified then separator :: n.path else n.path

def last (n : Name) : Label :=
  n.rest.getLast?.getD n.first

def kind (n : Name) : TokenKind :=
  if n.fullyQualified then .nameFullyQualified else Lexeme.nameKind false n.path

def lexeme (n : Name) : Lexeme :=
  { kind := n.kind, text := n.text }

end Name

/-- A reserved word in some case. -/
structure Word (word : String) where
  text : Text
  spells : text.toLower = word.toList

theorem nameRun_labelChars {a r : Text} (ha : ∀ c ∈ a, isLabelChar c = true) :
    Lexeme.nameRun (a ++ r) = (a ++ (Lexeme.nameRun r).1, (Lexeme.nameRun r).2) := by
  induction a with
  | nil => rfl
  | cons c a ih =>
    have hrest := ih fun d hd => ha d (List.mem_cons_of_mem c hd)
    rw [List.cons_append, Lexeme.nameRun_cons_of_label (ha c List.mem_cons_self), hrest]
    rfl

theorem nameRun_stop {r : Text} (h : r.continuesName = false) : Lexeme.nameRun r = ([], r) := by
  cases r with
  | nil => rfl
  | cons c r => rw [Lexeme.nameRun_cons, h, if_neg Bool.false_ne_true]

theorem Label.isLabelChar (l : Label) : ∀ c ∈ l.text, isLabelChar c = true := by
  intro c hc
  rcases List.mem_cons.1 hc with rfl | hc
  · exact isLabelChar_of_isLabelStart l.isStart
  · exact l.isTail c hc

theorem Label.separator_notMem (l : Label) : separator ∉ l.text := by
  intro h
  have hlabel := l.isLabelChar separator h
  rw [isLabelChar_separator] at hlabel
  cases hlabel

theorem nameRun_segments (ls : List Label) {r : Text} (h : r.continuesName = false) :
    Lexeme.nameRun ((ls.flatMap fun l => separator :: l.text) ++ r) =
      (ls.flatMap fun l => separator :: l.text, r) := by
  induction ls with
  | nil => exact nameRun_stop h
  | cons l ls ih =>
    have hstart : Text.startsLabel (l.text ++ ((ls.flatMap fun l => separator :: l.text) ++ r)) =
        true := l.isStart
    rw [List.flatMap_cons, List.append_assoc, List.cons_append, Lexeme.nameRun_separator hstart,
      nameRun_labelChars l.isLabelChar, ih]
    rfl

theorem Name.nameRun_path (n : Name) {r : Text} (h : r.continuesName = false) :
    Lexeme.nameRun (n.path ++ r) = (n.path, r) := by
  rw [Name.path, List.append_assoc, nameRun_labelChars n.first.isLabelChar,
    nameRun_segments n.rest h]

variable (shortTags : Bool)

theorem outline_label {s a r : Text} (hs : s.startsLabel = true) (hrun : Lexeme.nameRun s = (a, r))
    (hkind : (Lexeme.nameKind false a).staysInCode = true) :
    outline shortTags s =
      { kind := Lexeme.nameKind false a, text := a } :: outline shortTags r := by
  cases s with
  | nil => cases hs
  | cons c s =>
    have hcode : Lexeme.ofCode false c s =
        ({ kind := Lexeme.nameKind false a, text := a }, r) := by
      rw [Lexeme.ofCode, Lead.of_isLabelStart hs]
      simp only [Lexeme.name, hrun]
    exact outline_of_word hcode hkind

theorem Label.cr_notMem (l : Label) : '\r' ∉ l.text := by
  intro h
  cases l.isLabelChar '\r' h

theorem Name.cr_notMem_path (n : Name) : '\r' ∉ n.path := by
  simp [Name.path, separator, Label.cr_notMem]

theorem Name.separator_mem_path {n : Name} : separator ∈ n.path ↔ n.rest ≠ [] := by
  rw [Name.path, List.mem_append]
  constructor
  · rintro (h | h) hrest
    · exact n.first.separator_notMem h
    · rw [hrest] at h
      cases h
  · intro h
    right
    obtain ⟨l, ls, hrest⟩ := List.exists_cons_of_ne_nil h
    rw [hrest, List.flatMap_cons]
    simp

theorem Name.staysInCode (n : Name) (h : n.fullyQualified = false) :
    (Lexeme.nameKind false n.path).staysInCode = true ∧
      (Lexeme.nameKind false n.path).isNamePart = true := by
  rw [Lexeme.nameKind]
  by_cases hrest : n.rest = []
  · have hsep : n.path.contains separator = false := by
      rw [Bool.eq_false_iff, ne_eq, List.contains_iff_mem, Name.separator_mem_path]
      exact fun hne => hne hrest
    have hpath : n.path = n.first.text := by rw [Name.path, hrest]; exact List.append_nil _
    rw [hsep, hpath, n.unreserved h hrest]
    exact ⟨rfl, rfl⟩
  · have hsep : n.path.contains separator = true := by
      rw [List.contains_iff_mem]
      exact Name.separator_mem_path.2 hrest
    rw [if_pos hsep]
    split <;> exact ⟨rfl, rfl⟩

theorem Name.isNamePart_kind (n : Name) : n.kind.isNamePart = true := by
  rw [Name.kind]
  cases h : n.fullyQualified with
  | true => rfl
  | false => exact (n.staysInCode h).2

/-- A name in front of a text that it does not go on with is one lexeme. -/
theorem Name.wording (n : Name) {r : Text} (h : r.continuesName = false) :
    Text.wording shortTags (n.text ++ r) = n.lexeme :: Text.wording shortTags r := by
  have hstop : r.unifyLineEndings.continuesName = false := by
    rw [Text.continuesName_unifyLineEndings, h]
  have hrun := n.nameRun_path hstop
  have hstart : Text.startsLabel (n.path ++ r.unifyLineEndings) = true := n.first.isStart
  rw [Text.wording, Text.wording, Name.lexeme, Name.text, Name.kind]
  cases hfq : n.fullyQualified with
  | false =>
    rw [if_neg Bool.false_ne_true, if_neg Bool.false_ne_true,
      Text.unifyLineEndings_append_of_notMem n.cr_notMem_path]
    exact outline_label shortTags hstart hrun (n.staysInCode hfq).1
  | true =>
    have hcr : '\r' ∉ separator :: n.path := by
      simp [n.cr_notMem_path, separator]
    have hcode : Lexeme.ofCode false separator (n.path ++ r.unifyLineEndings) =
        ({ kind := .nameFullyQualified, text := separator :: n.path }, r.unifyLineEndings) := by
      rw [Lexeme.ofCode, show Lead.of separator = .separator from rfl]
      simp only [hstart, if_true, Lexeme.fullyQualifiedName, Lexeme.nameRun_separator hstart, hrun]
    rw [if_pos rfl, if_pos rfl, Text.unifyLineEndings_append_of_notMem hcr]
    exact outline_of_word hcode rfl

theorem Word.isAlpha {word : String} (w : Word word) (hword : ∀ c ∈ word.toList, c.isAlpha = true) :
    ∀ c ∈ w.text, c.isAlpha = true := by
  intro c hc
  have hmem : c.toLower ∈ word.toList := by
    rw [← w.spells]
    exact List.mem_map_of_mem hc
  exact isAlpha_of_toLower (hword _ hmem)

/-- A reserved word in front of a text that it does not go on with is one lexeme. -/
theorem Word.wording {word : String} {kind : TokenKind} (w : Word word)
    (hword : (word.toList, kind) ∈ Keyword.marked) {r : Text} (h : r.continuesName = false) :
    Text.wording shortTags (w.text ++ r) =
      { kind, text := w.text } :: Text.wording shortTags r := by
  have hmarked : ∀ e ∈ Keyword.marked, Keyword.marked.lookup e.1 = some e.2 ∧
      e.2.staysInCode = true ∧ e.1 ≠ [] ∧ e.1.all Char.isAlpha = true := by decide
  obtain ⟨hlookup, hstays, hne, halpha⟩ := hmarked _ hword
  have hlabel : ∀ c ∈ w.text, isLabelStart c = true := by
    intro c hc
    simp [isLabelStart, w.isAlpha (List.all_eq_true.1 halpha) c hc]
  have hsep : w.text.contains separator = false := by
    rw [Bool.eq_false_iff, ne_eq, List.contains_iff_mem]
    intro hmem
    cases hlabel separator hmem
  have hcr : '\r' ∉ w.text := by
    intro hmem
    cases hlabel '\r' hmem
  have hkind : Lexeme.nameKind false w.text = kind := by
    rw [Lexeme.nameKind, hsep, if_neg Bool.false_ne_true, if_neg Bool.false_ne_true, Keyword.kind?,
      w.spells, hlookup]
    rfl
  have hrun : Lexeme.nameRun (w.text ++ r.unifyLineEndings) = (w.text, r.unifyLineEndings) := by
    rw [nameRun_labelChars fun c hc => isLabelChar_of_isLabelStart (hlabel c hc), nameRun_stop,
      List.append_nil]
    rw [Text.continuesName_unifyLineEndings, h]
  have hstart : Text.startsLabel (w.text ++ r.unifyLineEndings) = true := by
    cases htext : w.text with
    | nil =>
      have hspells := w.spells
      rw [htext] at hspells
      exact absurd hspells.symm hne
    | cons c t => exact hlabel c (htext ▸ List.mem_cons_self)
  have houtline := outline_label shortTags hstart hrun (by rw [hkind]; exact hstays)
  rw [hkind] at houtline
  rw [Text.wording, Text.wording, Text.unifyLineEndings_append_of_notMem hcr, houtline]

/-- A mark is one lexeme wherever it stands. -/
theorem wording_mark {c : Char} {kind : TokenKind} (hmark : (c, Lead.mark kind) ∈ Lead.symbols)
    (r : Text) :
    Text.wording shortTags (c :: r) = { kind, text := [c] } :: Text.wording shortTags r := by
  have hmarks : ∀ e ∈ Lead.symbols, (match e.2 with
      | .mark kind => Lead.of e.1 = .mark kind && kind.staysInCode && !(['\r'].contains e.1)
      | _ => true) = true := by decide
  have hfacts := hmarks _ hmark
  simp only [Bool.and_eq_true, decide_eq_true_iff, Bool.not_eq_true'] at hfacts
  obtain ⟨⟨hlead, hstays⟩, hne⟩ := hfacts
  have hcr : '\r' ∉ [c] := by
    intro h
    rw [List.mem_singleton] at h
    rw [← h] at hne
    cases hne
  have hcode : Lexeme.ofCode false c r.unifyLineEndings =
      ({ kind, text := [c] }, r.unifyLineEndings) := by
    rw [Lexeme.ofCode, hlead]
    rfl
  rw [← List.singleton_append, Text.wording, Text.unifyLineEndings_append_of_notMem hcr]
  exact outline_of_word hcode hstays

/-- A separator that no label follows is one lexeme. -/
theorem wording_separator {r : Text} (h : r.startsLabel = false) :
    Text.wording shortTags (separator :: r) =
      { kind := .nsSeparator, text := [separator] } :: Text.wording shortTags r := by
  have hcr : '\r' ∉ [separator] := by decide
  have hcode : Lexeme.ofCode false separator r.unifyLineEndings =
      ({ kind := .nsSeparator, text := [separator] }, r.unifyLineEndings) := by
    rw [Lexeme.ofCode, show Lead.of separator = .separator from rfl]
    simp only [Text.startsLabel_unifyLineEndings, h, Bool.false_eq_true, if_false]
    rfl
  rw [← List.singleton_append, Text.wording, Text.unifyLineEndings_append_of_notMem hcr]
  exact outline_of_word hcode rfl

end PhpImports.Printed
