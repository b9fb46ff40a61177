import PhpImports.Diagnostic.Render
import PhpImports.Proofs.Cursor.LineTable

/-!
# Rendered notices

In a source of fewer than 2 ^ 32 bytes no place is looked up in vain, so every notice is rendered
(`Notice.exists_rendered`). Its lines are those it is put together from, as long as no text of it
has a line feed: one headline, two lines for a place, three for each note and one for the help. What is
shown of an offset fits together (`Source.exists_shown`): the quoted line, the column of the caret
and the place in words are those of the last place between characters that is not past the offset.
Only where the counts from one leave 32 bits they do not (`not_render_on_lines`).
-/

namespace PhpImports

section Results

variable {α β : Type} {f : α → Cursor.Result β} {l : List α} {bs : List β}

/-- Two steps meet no fault exactly if neither of them does. -/
theorem bind_eq_ok_iff {x : Cursor.Result α} {b : β} :
    x >>= f = .ok b ↔ ∃ a, x = .ok a ∧ f a = .ok b := by
  cases x <;> simp [bind, Except.bind]

/-- A list is gone through without a fault exactly if each of its elements is. -/
theorem mapM_eq_ok_iff : l.mapM f = .ok bs ↔ List.Forall₂ (fun a b => f a = .ok b) l bs := by
  induction l generalizing bs with
  | nil => cases bs <;> simp [pure, Except.pure]
  | cons a l ih =>
    rw [List.mapM_cons, bind_eq_ok_iff]
    constructor
    · rintro ⟨b, hb, h⟩
      obtain ⟨bs', hbs, h⟩ := bind_eq_ok_iff.1 h
      obtain rfl := Except.ok.inj h
      exact .cons hb (ih.1 hbs)
    · rintro (_ | ⟨hb, hbs⟩)
      exact ⟨_, hb, bind_eq_ok_iff.2 ⟨_, ih.2 hbs, rfl⟩⟩

theorem exists_forall₂ {R : α → β → Prop} (h : ∀ a ∈ l, ∃ b, R a b) :
    ∃ bs, List.Forall₂ R l bs := by
  induction l with
  | nil => exact ⟨[], .nil⟩
  | cons a l ih =>
    obtain ⟨b, hb⟩ := h a List.mem_cons_self
    obtain ⟨bs, hbs⟩ := ih fun a ha => h a (List.mem_cons_of_mem _ ha)
    exact ⟨b :: bs, .cons hb hbs⟩

variable {R : α → β → Prop} {a : α} {b : β}

theorem exists_of_mem_forall₂ (h : List.Forall₂ R l bs) (hb : b ∈ bs) : ∃ a ∈ l, R a b := by
  induction h with
  | nil => cases hb
  | cons hab _ ih =>
    rcases List.mem_cons.1 hb with rfl | hb
    · exact ⟨_, List.mem_cons_self, hab⟩
    · obtain ⟨a, ha, hab⟩ := ih hb
      exact ⟨a, List.mem_cons_of_mem _ ha, hab⟩

theorem exists_of_getElem?_forall₂ (h : List.Forall₂ R l bs) {k : Nat} (ha : l[k]? = some a) :
    ∃ b, bs[k]? = some b ∧ R a b := by
  induction h generalizing k with
  | nil => cases ha
  | cons hab _ ih =>
    cases k with
    | zero =>
      obtain rfl := Option.some.inj ha
      exact ⟨_, rfl, hab⟩
    | succ k => exact ih ha

end Results

/-- What is shown of an offset behind a gutter: the line of the source that holds it, a caret below
the character that stands there or below the end of the line, and the place in words. -/
inductive Source.Shows (source : Source) (gutter : Text) (byte : Nat) : Text → Text → Text → Prop
  | intro {a r l : Text} {column : Nat} (split : source.text = a ++ r)
      (offset : IsGreatest
        {i | (∃ x, Cursor.At source.text i x) ∧ i ≤ min byte source.text.size} a.size)
      (quoted : source.text.lines[a.count '\n']? = some l)
      (character : ∀ c x, r = c :: x → c ≠ '\n' → l[column]? = some c)
      (stop : r = [] ∨ r.head? = some '\n' → column = l.length) :
    Shows source gutter byte (gutter ++ l) (gutter ++ List.replicate column ' ' ++ ['^'])
      (source.name ++ ':' :: Text.ofNat (a.count '\n' + 1) ++ ':' :: Text.ofNat (column + 1))

namespace Source

variable {source : Source}

/-- What looking up an offset comes to. -/
theorem exists_lookup (hsize : source.text.size < UInt32.size) (byte : UInt32) :
    ∃ a r, source.text = a ++ r ∧ Text.Reaches byte.toNat a r ∧
      source.lineTable.lineCol byte =
        .ok ((a.count '\n').toUInt32, a.lastLine.length.toUInt32) ∧
      source.lineTable.lineText byte = .ok (a.lastLine ++ r.firstLine) := by
  obtain ⟨a, r, hsplit, hreach⟩ := Text.exists_reaches byte.toNat source.text
  have hclamped := hreach.clamp
  rw [hsplit] at hsize
  refine ⟨a, r, hsplit, hreach, ?_, ?_⟩
  · rw [lineTable, hsplit]
    exact Cursor.LineTable.lineCol_eq hsize hclamped
  · rw [lineTable, hsplit]
    exact Cursor.LineTable.lineText_eq hsize hclamped

/-- The place and the lines of an offset. -/
theorem exists_place_quote (hsize : source.text.size < UInt32.size) (byte : UInt32) :
    ∃ a r, source.text = a ++ r ∧ Text.Reaches byte.toNat a r ∧
      source.place byte = .ok (source.name ++
        ':' :: Text.ofNat ((a.count '\n').toUInt32 + 1).toNat ++
        ':' :: Text.ofNat (a.lastLine.length.toUInt32 + 1).toNat) ∧
      ∀ gutter, source.quote gutter byte = .ok (gutter ++ (a.lastLine ++ r.firstLine),
        gutter ++ List.replicate a.lastLine.length ' ' ++ ['^']) := by
  obtain ⟨a, r, hsplit, hreach, hlineCol, hlineText⟩ := exists_lookup hsize byte
  rw [hsplit] at hsize
  have hcolumn := Cursor.toNat_toUInt32 (Cursor.LineTable.length_lastLine_lt hsize)
  refine ⟨a, r, hsplit, hreach, ?_, fun gutter => ?_⟩
  · rw [place, hlineCol]
    rfl
  · rw [quote, hlineCol, hlineText]
    simp only [bind, Except.bind, hcolumn]
    rfl

variable {byte : UInt32}

/-- The shown parts of a source line have no line feed. -/
theorem lf_notMem_quote (hsize : source.text.size < UInt32.size) {gutter line caret : Text}
    (hgutter : '\n' ∉ gutter) (h : source.quote gutter byte = .ok (line, caret)) :
    '\n' ∉ line ∧ '\n' ∉ caret := by
  obtain ⟨a, r, -, -, -, hquote⟩ := exists_place_quote hsize byte
  obtain ⟨rfl, rfl⟩ := Prod.mk.inj (Except.ok.inj ((hquote gutter).symm.trans h))
  simp [hgutter, a.notMem_lastLine, r.notMem_firstLine]

theorem lf_notMem_place (hsize : source.text.size < UInt32.size) (hname : '\n' ∉ source.name)
    {place : Text} (h : source.place byte = .ok place) : '\n' ∉ place := by
  obtain ⟨a, r, -, -, hplace, -⟩ := exists_place_quote hsize byte
  obtain rfl := Except.ok.inj (hplace.symm.trans h)
  simp [hname, Text.lf_notMem_ofNat]

/-- A count from zero that is printed from one. -/
theorem toNat_toUInt32_succ {n : Nat} (h : n + 1 < UInt32.size) :
    (n.toUInt32 + 1).toNat = n + 1 := by
  have hn : n.toUInt32.toNat = n := Cursor.toNat_toUInt32 (by omega)
  rw [UInt32.toNat_add, hn]
  exact Nat.mod_eq_of_lt h

/-- What is shown of an offset, where no count from one leaves 32 bits. -/
theorem exists_shown (hsize : source.text.size + 1 < UInt32.size) (gutter : Text) (byte : UInt32) :
    ∃ quoted caret place, source.quote gutter byte = .ok (quoted, caret) ∧
      source.place byte = .ok place ∧ source.Shows gutter byte.toNat quoted caret place := by
  have hshort : source.text.size < UInt32.size := by omega
  obtain ⟨a, r, hsplit, hreach, hplace, hquote⟩ := exists_place_quote hshort byte
  have hoffset := hreach.clamp.isGreatest
  have hline := Text.getElem?_lines a r
  rw [← hsplit] at hoffset hline
  have hsize' : Text.size a ≤ source.text.size := by
    rw [hsplit, Text.size_append]
    exact Nat.le_add_right _ _
  have hlength := Cursor.LineTable.length_le_size a
  have hcount := List.count_le_length (a := '\n') (l := a)
  have hlast := Cursor.LineTable.size_endedLines_add a
  have hcolumn := Cursor.LineTable.length_le_size a.lastLine
  rw [toNat_toUInt32_succ (by omega), toNat_toUInt32_succ (by omega)] at hplace
  refine ⟨_, _, _, hquote gutter, hplace, .intro hsplit hoffset hline (fun c x hr hc => ?_)
    fun hends => ?_⟩
  · rw [hr, Text.firstLine_cons hc]
    simp
  · have hfirst : r.firstLine = [] := by
      rcases hends with rfl | hhead
      · rfl
      · obtain ⟨x, rfl⟩ := List.head?_eq_some_iff.1 hhead
        rfl
    rw [hfirst, List.append_nil]

end Source

/-- The lines between parts of one length each. -/
theorem getElem?_flatten_of_length {α : Type} {m : Nat} {ls : List (List α)}
    (hls : ∀ l ∈ ls, l.length = m) {k j : Nat} {l : List α} (hl : ls[k]? = some l) (hj : j < m) :
    ls.flatten[m * k + j]? = l[j]? := by
  induction ls generalizing k with
  | nil => cases hl
  | cons b ls ih =>
    obtain ⟨hb, hrest⟩ := List.forall_mem_cons.1 hls
    rw [List.flatten_cons]
    cases k with
    | zero =>
      obtain rfl : b = l := Option.some.inj hl
      rw [List.getElem?_append_left (by rw [hb]; omega), Nat.mul_zero, Nat.zero_add]
    | succ k =>
      have hle : m ≤ m * (k + 1) + j := by
        rw [Nat.mul_add_one]
        omega
      have hindex : m * (k + 1) + j - m = m * k + j := by
        rw [Nat.mul_add_one]
        omega
      rw [List.getElem?_append_right (by rw [hb]; exact hle), hb, hindex]
      exact ih hrest hl

namespace Notice

/-- No text of the notice has a line feed, and neither has the name of the source. -/
structure OnLines (n : Notice) (source : Source) : Prop where
  name : '\n' ∉ source.name
  message : '\n' ∉ n.message
  code : ∀ code, n.code = some code → '\n' ∉ code
  notes : ∀ note ∈ n.notes, '\n' ∉ note.message
  help : ∀ help, n.help = some help → '\n' ∉ help

/-- How many lines show the place of the notice. -/
def placeCount (n : Notice) : Nat :=
  if n.span.isSome then 2 else 0

end Notice

/-- The lines of a note, and what is shown of its place in them. -/
inductive Note.Rendered (note : Note) (source : Source) : List Text → Prop
  | intro {line caret place : Text}
      (quoted : source.quote "    | ".toList note.span.start = .ok (line, caret))
      (placed : source.place note.span.start = .ok place) :
    Rendered note source
      ["  = note: ".toList ++ note.message, line, caret ++ "  (".toList ++ place ++ ")".toList]

/-- The lines that show the place of a span, if there is one. -/
inductive Span.Rendered (source : Source) : Option Span → List Text → Prop
  | none : Rendered source none []
  | some {span : Span} {line caret : Text}
      (quoted : source.quote "  | ".toList span.start = .ok (line, caret)) :
    Rendered source (some span) [line, caret]

/-- The parts that the lines of a notice are put together from. -/
structure Notice.Rendered (n : Notice) (source : Source) (place : Text) (spanLines : List Text)
    (notes : List (List Text)) : Prop where
  placed : n.placeText source = .ok place
  span : Span.Rendered source n.span spanLines
  notes : List.Forall₂ (fun note ls => note.Rendered source ls) n.notes notes

section Rendered

variable {source : Source} {note : Note} {ls : List Text} {span? : Option Span}

theorem Note.Rendered.renderLines_eq (h : note.Rendered source ls) :
    note.renderLines source = .ok ls := by
  obtain ⟨quoted, placed⟩ := h
  rw [renderLines, placed, quoted]
  rfl

theorem Note.Rendered.length_eq (h : note.Rendered source ls) : ls.length = 3 := by
  cases h
  rfl

theorem Note.exists_rendered (hsize : source.text.size < UInt32.size) (note : Note) :
    ∃ ls, note.Rendered source ls := by
  obtain ⟨a, r, -, -, hplace, hquote⟩ := Source.exists_place_quote hsize note.span.start
  exact ⟨_, .intro (hquote _) hplace⟩

theorem Span.Rendered.length_eq (h : Rendered source span? ls) :
    ls.length = if span?.isSome then 2 else 0 := by
  cases h <;> rfl

theorem Span.exists_rendered (hsize : source.text.size < UInt32.size) (span? : Option Span) :
    ∃ ls, Rendered source span? ls := by
  cases span? with
  | none => exact ⟨_, .none⟩
  | some span =>
    obtain ⟨a, r, -, -, -, hquote⟩ := Source.exists_place_quote hsize span.start
    exact ⟨_, .some (hquote _)⟩

namespace Notice

variable {n : Notice} {place : Text} {spanLines : List Text} {notes : List (List Text)}

/-- The headline of a notice with its place in words. -/
def headlineAt (n : Notice) (place : Text) : Text :=
  n.severity.name ++ n.codeText ++ ": ".toList ++ place ++ ": ".toList ++ n.message

theorem exists_placeText (hsize : source.text.size < UInt32.size) (n : Notice) :
    ∃ place, n.placeText source = .ok place := by
  rw [placeText]
  cases n.span with
  | none => exact ⟨_, rfl⟩
  | some span =>
    obtain ⟨a, r, -, -, hplace, -⟩ := Source.exists_place_quote hsize span.start
    exact ⟨_, hplace⟩

/-- Rendering meets no fault. -/
theorem exists_rendered (hsize : source.text.size < UInt32.size) (n : Notice) :
    ∃ place spanLines notes, n.Rendered source place spanLines notes := by
  obtain ⟨place, hplace⟩ := n.exists_placeText hsize
  obtain ⟨spanLines, hspan⟩ := Span.exists_rendered hsize n.span
  obtain ⟨notes, hnotes⟩ :=
    exists_forall₂ (l := n.notes) fun note _ => Note.exists_rendered hsize note
  exact ⟨place, spanLines, notes, hplace, hspan, hnotes⟩

theorem spanLines_eq (h : Span.Rendered source n.span ls) : n.spanLines source = .ok ls := by
  rw [Notice.spanLines]
  generalize n.span = span? at h
  cases h with
  | none => rfl
  | some quoted =>
    simp only [quoted]
    rfl

namespace Rendered

/-- All the lines of a notice. -/
theorem renderLines_eq (h : n.Rendered source place spanLines notes) :
    n.renderLines source =
      .ok (n.headlineAt place :: spanLines ++ notes.flatten ++ n.helpLines) := by
  have hnotes := mapM_eq_ok_iff.2 (h.notes.imp fun _ _ => Note.Rendered.renderLines_eq)
  rw [renderLines, headline, h.placed, spanLines_eq h.span]
  simp only [bind, Except.bind, pure, Except.pure, hnotes]
  rfl

theorem length_note (h : n.Rendered source place spanLines notes) :
    ∀ ls ∈ notes, ls.length = 3 := by
  intro ls hls
  obtain ⟨note, -, hnote⟩ := exists_of_mem_forall₂ h.notes hls
  exact hnote.length_eq

theorem length_notes (h : n.Rendered source place spanLines notes) :
    notes.flatten.length = 3 * n.notes.length := by
  rw [List.length_flatten, List.map_congr_left h.length_note, List.map_const',
    List.sum_replicate_nat, h.notes.length_eq, Nat.mul_comm]

/-- The lines of a note among all of them. -/
theorem getElem?_lines (h : n.Rendered source place spanLines notes) {k j : Nat}
    (hls : notes[k]? = some ls) (hj : j < 3) :
    (n.headlineAt place :: spanLines ++ notes.flatten ++
      n.helpLines)[1 + n.placeCount + 3 * k + j]? = ls[j]? := by
  have hspan : spanLines.length = n.placeCount := h.span.length_eq
  have hnotes := h.length_notes
  have hbound := (List.getElem?_eq_some_iff.1 hls).1
  rw [← h.notes.length_eq] at hbound
  have hfront : (n.headlineAt place :: spanLines).length = 1 + n.placeCount := by
    rw [List.length_cons, hspan, Nat.add_comm]
  have hindex : 1 + n.placeCount + 3 * k + j - (1 + n.placeCount) = 3 * k + j := by omega
  rw [List.getElem?_append_left (by rw [List.length_append, hfront, hnotes]; omega),
    List.getElem?_append_right (by rw [hfront]; omega), hfront, hindex]
  exact getElem?_flatten_of_length h.length_note hls hj

end Rendered

/-! No line of a notice without line feeds has one. -/

theorem OnLines.notMem_headlineAt (h : n.OnLines source) (hplace : '\n' ∉ place) :
    '\n' ∉ n.headlineAt place := by
  have hseverity : '\n' ∉ n.severity.name := by cases n.severity <;> decide
  have hcode : '\n' ∉ n.codeText := by
    rw [codeText]
    cases hcode : n.code with
    | none => exact List.not_mem_nil
    | some code => simp [h.code code hcode]
  have hcolon : '\n' ∉ ": ".toList := by decide
  simp only [headlineAt, List.mem_append, not_or]
  exact ⟨⟨⟨⟨⟨hseverity, hcode⟩, hcolon⟩, hplace⟩, hcolon⟩, h.message⟩

variable (hsize : source.text.size < UInt32.size)

include hsize

theorem OnLines.notMem_placeText (h : n.OnLines source) (hplaced : n.placeText source = .ok place) :
    '\n' ∉ place := by
  rw [placeText] at hplaced
  split at hplaced
  · exact Source.lf_notMem_place hsize h.name hplaced
  · obtain rfl := Except.ok.inj hplaced
    exact h.name

theorem lf_notMem_span (h : Span.Rendered source span? ls) : ∀ l ∈ ls, '\n' ∉ l := by
  cases h with
  | none => exact List.forall_mem_nil _
  | some quoted =>
    obtain ⟨hline, hcaret⟩ := Source.lf_notMem_quote hsize (by decide) quoted
    exact List.forall_mem_cons.2 ⟨hline, List.forall_mem_singleton.2 hcaret⟩

theorem OnLines.notMem_note (h : n.OnLines source) (hnote : note ∈ n.notes)
    (hrendered : note.Rendered source ls) : ∀ l ∈ ls, '\n' ∉ l := by
  obtain ⟨quoted, placed⟩ := hrendered
  obtain ⟨hline, hcaret⟩ := Source.lf_notMem_quote hsize (by decide) quoted
  have hplace := Source.lf_notMem_place hsize h.name placed
  have hmessage := h.notes note hnote
  simp only [List.forall_mem_cons, List.mem_append, not_or]
  exact ⟨⟨by decide, hmessage⟩, hline, ⟨⟨⟨hcaret, by decide⟩, hplace⟩, by decide⟩,
    List.forall_mem_nil _⟩

theorem OnLines.notMem (h : n.OnLines source)
    (hrendered : n.Rendered source place spanLines notes) :
    ∀ l ∈ n.headlineAt place :: spanLines ++ notes.flatten ++ n.helpLines, '\n' ∉ l := by
  have hplace := h.notMem_placeText hsize hrendered.placed
  have hnotes : ∀ l ∈ notes.flatten, '\n' ∉ l := by
    intro l hl
    obtain ⟨ls, hls, hl⟩ := List.mem_flatten.1 hl
    obtain ⟨note, hnote, hrendered⟩ := exists_of_mem_forall₂ hrendered.notes hls
    exact h.notMem_note hsize hnote hrendered l hl
  have hhelp : ∀ l ∈ n.helpLines, '\n' ∉ l := by
    rw [helpLines]
    cases hhelp : n.help with
    | none => exact List.forall_mem_nil _
    | some help =>
      have hmark : '\n' ∉ "  = help: ".toList := by decide
      refine List.forall_mem_singleton.2 ?_
      simp only [List.mem_append, not_or]
      exact ⟨hmark, h.help help hhelp⟩
  simp only [List.cons_append, List.forall_mem_cons, List.forall_mem_append]
  exact ⟨h.notMem_headlineAt hplace, ⟨lf_notMem_span hsize hrendered.span, hnotes⟩, hhelp⟩

/-- Splitting what a notice is rendered to gives back its lines. -/
theorem OnLines.exists_render (h : n.OnLines source)
    (hrendered : n.Rendered source place spanLines notes) :
    ∃ text, n.render source = .ok text ∧
      text.lines = n.headlineAt place :: spanLines ++ notes.flatten ++ n.helpLines := by
  refine ⟨_, by rw [render, hrendered.renderLines_eq]; rfl, ?_⟩
  exact List.splitOn_intercalate '\n' (h.notMem hsize hrendered) (List.cons_ne_nil _ _)

end Notice
end Rendered

/-- A notice without line feeds is rendered in lines: a headline, the place if there is one, each
note and the help if there is any. Whatever offset a place or a note starts at, what is shown of it
fits together. -/
theorem render_on_lines (n : Notice) (source : Source) (h : n.OnLines source)
    (hsize : source.text.size + 1 < UInt32.size) :
    ∃ text, n.render source = .ok text ∧
      let lines := text.lines
      lines.length =
        1 + n.placeCount + 3 * n.notes.length + (if n.help.isSome then 1 else 0) ∧
      (n.span = none → lines[0]? = some (n.headlineAt source.name)) ∧
      (∀ span, n.span = some span → ∃ quoted caret place,
        source.Shows "  | ".toList span.start.toNat quoted caret place ∧
        lines[0]? = some (n.headlineAt place) ∧ lines[1]? = some quoted ∧
        lines[2]? = some caret) ∧
      (∀ k note, n.notes[k]? = some note → ∃ quoted caret place,
        source.Shows "    | ".toList note.span.start.toNat quoted caret place ∧
        let i := 1 + n.placeCount + 3 * k
        lines[i]? = some ("  = note: ".toList ++ note.message) ∧ lines[i + 1]? = some quoted ∧
        lines[i + 2]? = some (caret ++ "  (".toList ++ place ++ ")".toList)) ∧
      (∀ help, n.help = some help → lines.getLast? = some ("  = help: ".toList ++ help)) := by
  have hshort : source.text.size < UInt32.size := by omega
  obtain ⟨place, spanLines, notes, hrendered⟩ := n.exists_rendered hshort
  obtain ⟨text, htext, hlines⟩ := h.exists_render hshort hrendered
  have hspan : spanLines.length = n.placeCount := hrendered.span.length_eq
  have hnotes := hrendered.length_notes
  refine ⟨text, htext, ?_⟩
  rw [hlines]
  refine ⟨?_, fun hnone => ?_, fun span hsome => ?_, fun k note hnote => ?_, fun help hhelp => ?_⟩
  · rw [List.length_append, List.length_append, List.length_cons, hspan, hnotes, Notice.helpLines]
    cases n.help <;> simp <;> omega
  · have hplaced := hrendered.placed
    rw [Notice.placeText, hnone] at hplaced
    obtain rfl := Except.ok.inj hplaced
    rfl
  · obtain ⟨quoted, caret, place', hquote, hplace, hshows⟩ :=
      Source.exists_shown hsize "  | ".toList span.start
    have hplaced := hrendered.placed
    have hquoted := hrendered.span
    rw [Notice.placeText, hsome] at hplaced
    rw [hsome] at hquoted
    obtain rfl := Except.ok.inj (hplace.symm.trans hplaced)
    obtain _ | @⟨_, line, caret', hline⟩ := hquoted
    obtain ⟨rfl, rfl⟩ := Prod.mk.inj (Except.ok.inj (hquote.symm.trans hline))
    exact ⟨quoted, caret, place', hshows, rfl, rfl, rfl⟩
  · obtain ⟨quoted, caret, place', hquote, hplace, hshows⟩ :=
      Source.exists_shown hsize "    | ".toList note.span.start
    obtain ⟨ls, hls, hnote⟩ := exists_of_getElem?_forall₂ hrendered.notes hnote
    obtain @⟨line, caret', place'', hline, hplaced⟩ := hnote
    obtain rfl := Except.ok.inj (hplace.symm.trans hplaced)
    obtain ⟨rfl, rfl⟩ := Prod.mk.inj (Except.ok.inj (hquote.symm.trans hline))
    have hline (j : Nat) (hj : j < 3) := hrendered.getElem?_lines hls hj
    exact ⟨quoted, caret, place', hshows, hline 0 (by decide), hline 1 (by decide),
      hline 2 (by decide)⟩
  · rw [Notice.helpLines, hhelp, List.getLast?_append]
    rfl

/-- A place past the end of the text and a note inside a character. -/
theorem render_on_lines_past_end :
    let source : Source := ⟨"a.php".toList, "<?php\nuse é\\B;".toList⟩
    let n : Notice :=
      { severity := .warning, message := "open".toList, code := some "W0001".toList,
        span := some ⟨99, 7⟩, notes := [⟨"here".toList, ⟨11, 11⟩⟩] }
    n.OnLines source ∧ source.text.size + 1 < UInt32.size ∧ ∃ text, n.render source = .ok text ∧
      text.lines.length = 6 ∧ ∃ quoted caret place,
        source.Shows "  | ".toList 99 quoted caret place ∧
        text.lines[0]? = some (n.headlineAt place) := by
  intro source n
  have honlines : n.OnLines source :=
    ⟨by decide, by decide, fun code hcode => by cases hcode; decide, by decide,
      fun help hhelp => by cases hhelp⟩
  have hsize : source.text.size + 1 < UInt32.size := by decide
  obtain ⟨text, htext, hlength, -, hspan, -, -⟩ := render_on_lines n source honlines hsize
  obtain ⟨quoted, caret, place, hshows, hheadline, -, -⟩ := hspan ⟨99, 7⟩ rfl
  exact ⟨honlines, hsize, text, htext, hlength, quoted, caret, place, hshows, hheadline⟩

example :
    let source : Source := ⟨"a.php".toList, "<?php\nuse é\\B;".toList⟩
    let n : Notice :=
      { severity := .warning, message := "open".toList, span := some ⟨99, 7⟩,
        notes := [⟨"here".toList, ⟨11, 11⟩⟩] }
    (n.renderLines source).toOption = some
      ["warning: a.php:2:9: open".toList, "  | use é\\B;".toList, "  |         ^".toList,
        "  = note: here".toList, "    | use é\\B;".toList, "    |     ^  (a.php:2:5)".toList] := by
  decide +kernel

/-! At the end of a line of 2 ^ 32 - 1 characters the count from one is zero. -/

theorem Text.lastLine_of_notMem {s : Text} (h : '\n' ∉ s) : s.lastLine = s := by
  rcases s.endedLines_cases with hnone | ⟨b, hb⟩
  · have hsplit := s.endedLines_append_lastLine
    rwa [hnone] at hsplit
  · have hmem : '\n' ∈ s.endedLines ++ s.lastLine := by simp [hb]
    rw [s.endedLines_append_lastLine] at hmem
    exact absurd hmem h

theorem Source.place_of_longest {source : Source} (hlf : '\n' ∉ source.text)
    (hlength : source.text.length = 4294967295) (hsize : source.text.size = 4294967295) :
    source.place 4294967295 = .ok (source.name ++ ":1:0".toList) := by
  have hshort : source.text.size < UInt32.size := by
    rw [hsize]
    decide
  obtain ⟨a, r, hsplit, hreach, hplace, -⟩ := exists_place_quote hshort 4294967295
  have hnil : r = [] := by
    cases r with
    | nil => rfl
    | cons c x =>
      have hlt := hreach.lt c x rfl
      rw [hsplit, Text.size_append, Text.size_cons] at hsize
      have hnat : (4294967295 : UInt32).toNat = 4294967295 := rfl
      omega
  rw [hnil, List.append_nil] at hsplit
  rw [hsplit] at hlf hlength
  rw [hplace, Text.lastLine_of_notMem hlf, hlength, List.count_eq_zero_of_not_mem hlf,
    List.append_assoc]
  rfl

theorem Source.not_shown_of_longest {source : Source} {n : Notice} {span : Span}
    (h : n.OnLines source) (hspan : n.span = some span) (hstart : span.start = 4294967295)
    (hlf : '\n' ∉ source.text) (hlength : source.text.length = 4294967295)
    (hsize : source.text.size = 4294967295) :
    ¬ ∃ text quoted caret place, n.render source = .ok text ∧
      source.Shows "  | ".toList span.start.toNat quoted caret place ∧
      text.lines[0]? = some (n.headlineAt place) := by
  rintro ⟨text, quoted, caret, place, htext, hshows, hheadline⟩
  have hshort : source.text.size < UInt32.size := by
    rw [hsize]
    decide
  obtain ⟨place', spanLines, notes, hrendered⟩ := n.exists_rendered hshort
  obtain ⟨text', htext', hlines⟩ := h.exists_render hshort hrendered
  obtain rfl := Except.ok.inj (htext.symm.trans htext')
  have hplaced := hrendered.placed
  rw [Notice.placeText, hspan] at hplaced
  simp only [hstart, place_of_longest hlf hlength hsize] at hplaced
  obtain rfl := Except.ok.inj hplaced
  rw [hlines] at hheadline
  have hplace : source.name ++ ":1:0".toList = place :=
    List.append_cancel_left (List.append_cancel_right (List.append_cancel_right
      (Option.some.inj hheadline)))
  obtain @⟨a, r, l, column, hsplit, -, -, -, -⟩ := hshows
  have hnone : '\n' ∉ a := by
    rw [hsplit] at hlf
    exact fun hmem => hlf (List.mem_append_left _ hmem)
  rw [List.count_eq_zero_of_not_mem hnone, List.append_assoc, List.append_cancel_left_eq] at hplace
  have hone : Text.ofNat (0 + 1) = ['1'] := rfl
  rw [hone] at hplace
  have hbehind : ":1:".toList ++ ['0'] = ":1:".toList ++ Text.ofNat (column + 1) := hplace
  have hdigits := List.append_cancel_left hbehind
  have hzero : Text.digitsValue ['0'] = 0 := rfl
  rw [hdigits, Text.digitsValue_ofNat] at hzero
  exact absurd hzero (Nat.succ_ne_zero column)

/-- The caret goes by the characters of the source line, not by those of the quoted line with its
gutter, and the end of a text that is one line of 2 ^ 32 - 1 characters. -/
theorem not_render_on_lines :
    (let source : Source := ⟨"a.php".toList, "use".toList⟩
     let n : Notice := { severity := .warning, message := "open".toList, span := some ⟨0, 3⟩ }
     n.OnLines source ∧ (n.renderLines source).toOption =
        some ["warning: a.php:1:1: open".toList, "  | use".toList, "  | ^".toList] ∧
      source.text[0]? = some 'u' ∧ "  | use".toList[0]? ≠ some 'u') ∧
    let source : Source := ⟨[], List.replicate 4294967295 'a'⟩
    let n : Notice :=
      { severity := .warning, message := [], span := some ⟨4294967295, 4294967295⟩ }
    n.OnLines source ∧ ¬ ∃ text quoted caret place, n.render source = .ok text ∧
      source.Shows "  | ".toList (4294967295 : UInt32).toNat quoted caret place ∧
      text.lines[0]? = some (n.headlineAt place) := by
  have hnone : ∀ {code : Text}, (none : Option Text) = some code → '\n' ∉ code := nofun
  refine ⟨⟨⟨by decide, by decide, fun _ => hnone, by decide, fun _ => hnone⟩, by decide +kernel⟩,
    ?_⟩
  intro source n
  have hlf : '\n' ∉ source.text := fun h => absurd (List.eq_of_mem_replicate h) (by decide)
  have hsize : source.text.size = 4294967295 := Text.size_replicate _ (by decide)
  have honlines : n.OnLines source :=
    ⟨List.not_mem_nil, List.not_mem_nil, fun _ => hnone, List.forall_mem_nil _, fun _ => hnone⟩
  exact ⟨honlines, Source.not_shown_of_longest honlines rfl rfl hlf List.length_replicate hsize⟩

end PhpImports
