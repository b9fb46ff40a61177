import PhpImports.Import.AliasTable
import PhpImports.Proofs.Printed.Name

/-!
# Printed declarations

A file of use declarations is printed with layout between all words and marks, and with some of it
wherever two words would run together. Only its words and marks are read: what the file says in code
is the list of their lexemes (`File.wording`). Layout inside a name is not printed.
-/

namespace PhpImports.Printed

/-- The words that give an import its alias. -/
structure Alias where
  before : Gap
  word : Word "as"
  between : Gap
  label : Label
  unreserved : Keyword.kind? label.text = none

/-- A word in front of a name that says what is imported. -/
inductive Marker where
  | function (word : Word "function") (after : Gap)
  | const (word : Word "const") (after : Gap)

structure Import where
  before : Layout
  marker : Option Marker
  name : Name
  asName : Option Alias
  after : Layout

/-- One import or more, with commas between them. -/
structure Imports where
  first : Import
  rest : List Import

inductive Body where
  | plain (imports : Imports)
  /-- The imports share a path, which a separator and a brace end. A comma may stand after them. -/
  | group (marker : Option Marker) (path : Name) (beforeSeparator beforeBrace : Layout)
      (imports : Imports) (trailing : Option Layout) (after : Layout)

structure Declaration where
  word : Word "use"
  gap : Gap
  body : Body
  after : Layout

structure File where
  opening : Layout
  declarations : List Declaration

section Print

def Alias.text (a : Alias) : Text :=
  a.before.text ++ (a.word.text ++ (a.between.text ++ a.label.text))

def Marker.text : Marker → Text
  | .function word after => word.text ++ after.text
  | .const word after => word.text ++ after.text

def Import.text (i : Import) : Text :=
  i.before.text ++ (i.marker.elim [] (·.text) ++ (i.name.text ++
    (i.asName.elim [] (·.text) ++ i.after.text)))

def Imports.text (is : Imports) : Text :=
  is.first.text ++ is.rest.flatMap fun i => ',' :: i.text

def Body.text : Body → Text
  | .plain imports => imports.text
  | .group marker path beforeSeparator beforeBrace imports trailing after =>
    marker.elim [] (·.text) ++ (path.text ++ (beforeSeparator.text ++ separator ::
      (beforeBrace.text ++ '{' :: (imports.text ++ (trailing.elim [] (fun l => ',' :: l.text) ++
        '}' :: after.text)))))

def Declaration.text (d : Declaration) : Text :=
  d.word.text ++ (d.gap.text ++ (d.body.text ++ ';' :: d.after.text))

def openTag : Text := ['<', '?', 'p', 'h', 'p', '\n']

/-- The text behind the open tag. -/
def File.code (f : File) : Text :=
  f.opening.text ++ f.declarations.flatMap (·.text)

def File.text (f : File) : Text :=
  openTag ++ f.code

end Print

section Lexemes

def comma : Lexeme := { kind := .comma, text := [','] }

def semicolon : Lexeme := { kind := .semicolon, text := [';'] }

def Alias.name (a : Alias) : Name where
  fullyQualified := false
  first := a.label
  rest := []
  unreserved := fun _ _ => a.unreserved

def Alias.lexemes (a : Alias) : List Lexeme :=
  [{ kind := .kwAs, text := a.word.text }, a.name.lexeme]

def Marker.lexeme : Marker → Lexeme
  | .function word _ => { kind := .kwFunction, text := word.text }
  | .const word _ => { kind := .kwConst, text := word.text }

def Import.lexemes (i : Import) : List Lexeme :=
  (i.marker.map (·.lexeme)).toList ++ i.name.lexeme :: i.asName.elim [] (·.lexemes)

def Imports.lexemes (is : Imports) : List Lexeme :=
  is.first.lexemes ++ is.rest.flatMap fun i => comma :: i.lexemes

def Body.lexemes : Body → List Lexeme
  | .plain imports => imports.lexemes
  | .group marker path _ _ imports trailing _ =>
    (marker.map (·.lexeme)).toList ++ path.lexeme ::
      { kind := .nsSeparator, text := [separator] } :: { kind := .lBrace, text := ['{'] } ::
      (imports.lexemes ++ ((trailing.map fun _ => comma).toList ++
        [{ kind := .rBrace, text := ['}'] }]))

def Declaration.lexemes (d : Declaration) : List Lexeme :=
  { kind := .kwUse, text := d.word.text } :: (d.body.lexemes ++ [semicolon])

def File.lexemes (f : File) : List Lexeme :=
  f.declarations.flatMap (·.lexemes)

end Lexemes

variable (shortTags : Bool) {r : Text}

theorem Marker.wording (m : Option Marker) (r : Text) :
    Text.wording shortTags (m.elim [] (·.text) ++ r) =
      (m.map (·.lexeme)).toList ++ Text.wording shortTags r := by
  rcases m with _ | ⟨word, after⟩ | ⟨word, after⟩
  · rfl
  · have hword := @Word.wording shortTags _ .kwFunction word (by decide) _ (after.continuesName r)
    simp only [Option.elim_some, Marker.text, List.append_assoc, hword, after.wording]
    rfl
  · have hword := @Word.wording shortTags _ .kwConst word (by decide) _ (after.continuesName r)
    simp only [Option.elim_some, Marker.text, List.append_assoc, hword, after.wording]
    rfl

theorem Alias.wording (a : Option Alias) (h : r.continuesName = false) :
    Text.wording shortTags (a.elim [] (·.text) ++ r) =
      a.elim [] (·.lexemes) ++ Text.wording shortTags r := by
  cases a with
  | none => rfl
  | some a =>
    have hlabel := a.name.wording shortTags h
    have hname : a.name.text = a.label.text := List.append_nil _
    have hword := @Word.wording shortTags _ .kwAs a.word (by decide) _
      (a.between.continuesName (a.label.text ++ r))
    rw [hname] at hlabel
    simp only [Option.elim_some, Alias.text, List.append_assoc, a.before.wording, hword,
      a.between.wording, hlabel]
    rfl

theorem Alias.continuesName (a : Option Alias) (h : r.continuesName = false) :
    Text.continuesName (a.elim [] (·.text) ++ r) = false := by
  cases a with
  | none => exact h
  | some a =>
    rw [Option.elim_some, Alias.text, List.append_assoc]
    exact a.before.continuesName _

theorem Import.wording (i : Import) (h : r.continuesName = false) :
    Text.wording shortTags (i.text ++ r) = i.lexemes ++ Text.wording shortTags r := by
  have hafter := i.after.continuesName h
  have hname := i.name.wording shortTags (Alias.continuesName i.asName hafter)
  have halias := Alias.wording shortTags i.asName hafter
  simp only [Import.text, List.append_assoc, i.before.wording, Marker.wording, hname, halias,
    i.after.wording]
  simp only [Import.lexemes, List.append_assoc, List.cons_append]

theorem Imports.wording (is : Imports) (h : r.continuesName = false) :
    Text.wording shortTags (is.text ++ r) = is.lexemes ++ Text.wording shortTags r := by
  obtain ⟨first, rest⟩ := is
  rw [Imports.text, Imports.lexemes, List.append_assoc, List.append_assoc]
  induction rest generalizing first with
  | nil => exact first.wording shortTags h
  | cons i is ih =>
    have hcomma : Text.continuesName
        (',' :: (i.text ++ (is.flatMap (fun i => ',' :: i.text) ++ r))) = false := rfl
    have hmark := @wording_mark shortTags ',' .comma (by decide)
      (i.text ++ (is.flatMap (fun i => ',' :: i.text) ++ r))
    simp only [List.flatMap_cons, List.append_assoc, List.cons_append]
    rw [first.wording shortTags hcomma, hmark, ih]
    rfl

/-- A comma in front of the closing brace, if there is one, and the brace. -/
theorem Body.wording_trailing (trailing : Option Layout) (r : Text) :
    Text.wording shortTags (trailing.elim [] (fun l => ',' :: l.text) ++ '}' :: r) =
      (trailing.map fun _ => comma).toList ++
        { kind := .rBrace, text := ['}'] } :: Text.wording shortTags r := by
  have hbrace := @wording_mark shortTags '}' .rBrace (by decide) r
  cases trailing with
  | none => exact hbrace
  | some l =>
    have hcomma := @wording_mark shortTags ',' .comma (by decide) (l.text ++ '}' :: r)
    rw [Option.elim_some, List.cons_append, hcomma, l.wording, hbrace]
    rfl

theorem Body.wording (b : Body) (h : r.continuesName = false) :
    Text.wording shortTags (b.text ++ r) = b.lexemes ++ Text.wording shortTags r := by
  cases b with
  | plain imports => exact imports.wording shortTags h
  | group marker path beforeSeparator beforeBrace imports trailing after =>
    let inside : Text := imports.text ++ (trailing.elim [] (fun l => ',' :: l.text) ++
      '}' :: (after.text ++ r))
    have hbrace : Text.startsLabel (beforeBrace.text ++ '{' :: inside) = false :=
      beforeBrace.startsLabel rfl
    have hpath : Text.continuesName (beforeSeparator.text ++ separator ::
        (beforeBrace.text ++ '{' :: inside)) = false := by
      apply beforeSeparator.continuesName
      rw [Text.continuesName, hbrace, isLabelChar_separator]
      rfl
    have hclosing : Text.continuesName (trailing.elim [] (fun l => ',' :: l.text) ++
        '}' :: (after.text ++ r)) = false := by
      cases trailing <;> rfl
    have hopen := @wording_mark shortTags '{' .lBrace (by decide) inside
    simp only [Body.text, List.append_assoc, List.cons_append, Marker.wording]
    rw [path.wording shortTags hpath, beforeSeparator.wording, wording_separator shortTags hbrace,
      beforeBrace.wording, hopen, imports.wording shortTags hclosing, Body.wording_trailing,
      after.wording]
    simp only [Body.lexemes, List.append_assoc, List.cons_append, List.nil_append]

theorem Declaration.wording (d : Declaration) (r : Text) :
    Text.wording shortTags (d.text ++ r) = d.lexemes ++ Text.wording shortTags r := by
  have hsemicolon : Text.continuesName (';' :: (d.after.text ++ r)) = false := rfl
  have hmark := @wording_mark shortTags ';' .semicolon (by decide) (d.after.text ++ r)
  have hbody := d.body.wording shortTags hsemicolon
  have hword := @Word.wording shortTags _ .kwUse d.word (by decide) _
    (d.gap.continuesName (d.body.text ++ ';' :: (d.after.text ++ r)))
  simp only [Declaration.text, List.append_assoc, List.cons_append, hword, d.gap.wording, hbody,
    hmark, d.after.wording]
  simp only [Declaration.lexemes, List.append_assoc, List.cons_append, List.nil_append]
  rfl

theorem File.wording (f : File) :
    Text.wording shortTags f.code = f.lexemes := by
  rw [File.code, f.opening.wording, File.lexemes]
  induction f.declarations with
  | nil => exact outline_nil shortTags
  | cons d ds ih => rw [List.flatMap_cons, List.flatMap_cons, d.wording, ih]

end PhpImports.Printed
