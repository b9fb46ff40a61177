import PhpImports.Proofs.Import.Spelling
import PhpImports.Proofs.Lexeme.NamePart
import PhpImports.Proofs.Report.LineEnding
import Mathlib.Data.List.TakeWhile

/-!
# Doubled separators in imported names

The texts of name parts are put together as they stand; only where a segment is appended to a path
that ends with a separator are the separators at its start dropped. So a separator without a label
that another separator or a fully qualified name follows, in the same segment, stays doubled in the
imported name. It is so for no other reason: the names of a file are single exactly if the imports
that decide its aliases are seamless (`names_single_iff`).
-/

namespace PhpImports

/-- Behind `p`, the text of `q` starts with a second separator. -/
def Piece.Doubles (p q : Piece) : Prop :=
  p.kind = .nsSeparator ∧ (q.kind = .nsSeparator ∨ q.kind = .nameFullyQualified)

instance (p q : Piece) : Decidable (p.Doubles q) :=
  inferInstanceAs (Decidable (_ ∧ _))

/-- The path of these parts ends with a separator. That of no parts is the root, which does. -/
def endsWithSeparator (parts : List Piece) : Bool :=
  parts.getLast?.all (·.kind = .nsSeparator)

/-- The parts of a segment that are left when it is appended to the path of the parts before. -/
def keptParts (before parts : List Piece) : List Piece :=
  if endsWithSeparator before then parts.dropWhile (·.kind = .nsSeparator) else parts

/-- No separator is doubled in the segments, which come after the parts before. -/
def SeamlessAfter : List Piece → List (List Piece) → Prop
  | _, [] => True
  | before, parts :: segments =>
    (keptParts before parts).IsChain (fun p q => ¬ p.Doubles q) ∧
      SeamlessAfter (before ++ parts) segments

def Spelling.IsSeamless (x : Spelling) : Prop :=
  SeamlessAfter [] x.segments

namespace Text

theorem dropWhile_separator_eq_nil {s : Text} (h : s.dropWhile (· = separator) = []) :
    s = [] ∨ s.getLast? = some separator := by
  rcases List.eq_nil_or_concat s with rfl | ⟨a, c, rfl⟩
  · exact Or.inl rfl
  · have hc := List.dropWhile_eq_nil_iff.1 h c (by simp)
    rw [decide_eq_true_iff] at hc
    exact Or.inr (by simp [hc])

theorem getLast?_dropWhile {p : Char → Bool} {s : Text} (h : s.dropWhile p ≠ []) :
    (s.dropWhile p).getLast? = s.getLast? := by
  have hsplit := List.takeWhile_append_dropWhile (p := p) (l := s)
  have hlast := List.getLast?_append_of_ne_nil (s.takeWhile p) h
  rwa [hsplit, eq_comm] at hlast

theorem getLast?_appendSegment {path segment : Text} :
    (path.appendSegment segment).getLast? = some separator ↔
      segment = [] ∧ path.getLast? = some separator ∨ segment.getLast? = some separator := by
  rw [appendSegment]
  split
  · next hpath =>
    by_cases hdrop : segment.dropWhile (· = separator) = []
    · rw [hdrop, List.append_nil]
      have hs := dropWhile_separator_eq_nil hdrop
      tauto
    · have hne : segment ≠ [] := fun hnil => hdrop (by rw [hnil]; rfl)
      rw [List.getLast?_append_of_ne_nil _ hdrop, getLast?_dropWhile hdrop]
      tauto
  · next hpath =>
    by_cases hne : segment = []
    · subst hne
      simp [hpath]
    · rw [List.getLast?_append_of_ne_nil _ hne]
      tauto

end Text

namespace Piece

variable {ps : List Piece}

theorem texts_eq_nil (h : ∀ p ∈ ps, IsNamePart p.kind p.text) : texts ps = [] ↔ ps = [] := by
  cases ps with
  | nil => simp [texts]
  | cons p ps =>
    have hp := (h p List.mem_cons_self).ne_nil
    simp [texts_cons, hp]

theorem head?_texts_cons {p : Piece} (hp : IsNamePart p.kind p.text) :
    (texts (p :: ps)).head? = p.text.head? := by
  rw [texts_cons]
  exact List.head?_append_of_ne_nil _ hp.ne_nil

theorem head?_texts (h : ∀ p ∈ ps, IsNamePart p.kind p.text) :
    (texts ps).head? = some separator ↔
      ∃ p ∈ ps.head?, p.kind = .nsSeparator ∨ p.kind = .nameFullyQualified := by
  cases ps with
  | nil => simp [texts]
  | cons p ps =>
    have hp := h p List.mem_cons_self
    rw [head?_texts_cons hp, hp.head]
    simp

theorem getLast?_texts (h : ∀ p ∈ ps, IsNamePart p.kind p.text) :
    (texts ps).getLast? = some separator ↔ ∃ p ∈ ps.getLast?, p.kind = .nsSeparator := by
  rcases List.eq_nil_or_concat ps with rfl | ⟨qs, p, rfl⟩
  · simp [texts]
  · have hp := h p (by simp)
    rw [List.concat_eq_append, texts_append, texts_singleton,
      List.getLast?_append_of_ne_nil _ hp.ne_nil, hp.last]
    simp

theorem hasDouble_texts (h : ∀ p ∈ ps, IsNamePart p.kind p.text) :
    ¬ (texts ps).HasDouble ↔ ps.IsChain (fun p q => ¬ p.Doubles q) := by
  induction ps with
  | nil => exact iff_of_true (by decide) .nil
  | cons p ps ih =>
    have hp := h p List.mem_cons_self
    have hps : ∀ q ∈ ps, IsNamePart q.kind q.text := fun q hq => h q (List.mem_cons_of_mem p hq)
    have hmeet : (p.text.getLast? = some separator ∧ (texts ps).head? = some separator) ↔
        ∃ q ∈ ps.head?, p.Doubles q := by
      rw [hp.last, head?_texts hps]
      constructor
      · rintro ⟨hk, q, hq, hq'⟩
        exact ⟨q, hq, hk, hq'⟩
      · rintro ⟨q, hq, hk, hq'⟩
        exact ⟨hk, q, hq, hq'⟩
    rw [texts_cons, Text.hasDouble_append, hmeet, List.isChain_cons, ← ih hps]
    have hsingle := hp.single
    constructor
    · intro hno
      exact ⟨fun q hq hd => hno (Or.inr (Or.inr ⟨q, hq, hd⟩)), fun hd => hno (Or.inr (Or.inl hd))⟩
    · rintro ⟨hq, hd⟩ (hno | hno | ⟨q, hmem, hno⟩)
      · exact hsingle hno
      · exact hd hno
      · exact hq q hmem hno

/-- A name that is fully qualified loses only the separator that it starts with. -/
theorem hasDouble_dropWhile_cons {p : Piece} (hp : IsNamePart p.kind p.text)
    (hk : p.kind ≠ .nsSeparator) (t : Text) :
    Text.HasDouble ((p.text ++ t).dropWhile (· = separator)) ↔ Text.HasDouble (p.text ++ t) := by
  cases htext : p.text with
  | nil => exact absurd htext hp.ne_nil
  | cons c r =>
    by_cases hc : c = separator
    · subst hc
      cases r with
      | nil => exact absurd (hp.last.1 (by rw [htext]; rfl)) hk
      | cons d r =>
        have hd : d ≠ separator := by
          rintro rfl
          exact hp.single ⟨[], r, by rw [htext]; rfl⟩
        have hdrop : (separator :: d :: r ++ t).dropWhile (· = separator) = d :: r ++ t := by
          simp [hd]
        have hcons := Text.hasDouble_append (s := [separator]) (t := d :: r ++ t)
        have hroot : ¬ Text.HasDouble [separator] := by decide
        have hhead : ¬ (d :: r ++ t).head? = some separator := by simpa using hd
        rw [hdrop, show separator :: d :: r ++ t = [separator] ++ (d :: r ++ t) from rfl, hcons]
        tauto
    · have hdrop : (c :: r ++ t).dropWhile (· = separator) = c :: r ++ t := by simp [hc]
      rw [hdrop]

theorem hasDouble_dropWhile_texts (h : ∀ p ∈ ps, IsNamePart p.kind p.text) :
    Text.HasDouble ((texts ps).dropWhile (· = separator)) ↔
      Text.HasDouble (texts (ps.dropWhile (·.kind = .nsSeparator))) := by
  induction ps with
  | nil => rfl
  | cons p ps ih =>
    by_cases hk : p.kind = .nsSeparator
    · have hdrop : (texts (p :: ps)).dropWhile (· = separator) =
          (texts ps).dropWhile (· = separator) := by
        rw [texts_cons, (h p List.mem_cons_self).lone hk]
        simp
      rw [hdrop, List.dropWhile_cons_of_pos (by simpa using hk)]
      exact ih (fun q hq => h q (List.mem_cons_of_mem p hq))
    · rw [List.dropWhile_cons_of_neg (by simpa using hk), texts_cons]
      exact hasDouble_dropWhile_cons (h p List.mem_cons_self) hk _

end Piece

section Segments

variable {before parts : List Piece} {path : Text}

theorem isChain_keptParts (h : ∀ p ∈ parts, IsNamePart p.kind p.text)
    (hend : path.getLast? = some separator ↔ endsWithSeparator before = true) :
    ¬ (path.trimmed (Piece.texts parts)).HasDouble ↔
      (keptParts before parts).IsChain (fun p q => ¬ p.Doubles q) := by
  rw [Text.trimmed, keptParts]
  by_cases hpath : path.getLast? = some separator
  · have hdrop : ∀ p ∈ parts.dropWhile (·.kind = .nsSeparator), IsNamePart p.kind p.text :=
      fun p hp => h p ((List.dropWhile_suffix _).subset hp)
    rw [if_pos hpath, if_pos (hend.1 hpath), Piece.hasDouble_dropWhile_texts h]
    exact Piece.hasDouble_texts hdrop
  · rw [if_neg hpath, if_neg (fun he => hpath (hend.2 he))]
    exact Piece.hasDouble_texts h

theorem endsWithSeparator_append (h : ∀ p ∈ parts, IsNamePart p.kind p.text)
    (hend : path.getLast? = some separator ↔ endsWithSeparator before = true) :
    (path.appendSegment (Piece.texts parts)).getLast? = some separator ↔
      endsWithSeparator (before ++ parts) = true := by
  rw [Text.getLast?_appendSegment, Piece.texts_eq_nil h, Piece.getLast?_texts h, hend]
  rcases List.eq_nil_or_concat parts with rfl | ⟨qs, p, rfl⟩
  · simp
  · simp [endsWithSeparator, ← List.append_assoc]

theorem hasDouble_foldl_appendSegment {segments : List (List Piece)}
    (h : ∀ parts ∈ segments, ∀ p ∈ parts, IsNamePart p.kind p.text)
    (hend : path.getLast? = some separator ↔ endsWithSeparator before = true) :
    ¬ (segments.foldl (fun path parts => path.appendSegment (Piece.texts parts)) path).HasDouble ↔
      ¬ path.HasDouble ∧ SeamlessAfter before segments := by
  induction segments generalizing before path with
  | nil => exact (and_iff_left trivial).symm
  | cons parts segments ih =>
    have hparts := h parts List.mem_cons_self
    have hchain := isChain_keptParts hparts hend
    have hrest := ih (fun qs hqs => h qs (List.mem_cons_of_mem parts hqs))
      (endsWithSeparator_append hparts hend)
    rw [List.foldl_cons, hrest, Text.hasDouble_appendSegment, SeamlessAfter, ← hchain]
    tauto

end Segments

theorem Spelling.isSeamless_iff {x : Spelling}
    (h : x.PartsAll fun p => IsNamePart p.kind p.text) :
    x.IsSeamless ↔ ¬ x.clause.name.HasDouble := by
  have hroot : ¬ Text.HasDouble [separator] := by decide
  have hfold := @hasDouble_foldl_appendSegment [] [separator] x.segments h (by decide)
  rw [IsSeamless, clause, segmentsPath, hfold]
  exact (and_iff_right hroot).symm

/-- The names of a file's imports hold no two separators in a row exactly if each import that
decides an alias is spelled without a separator token right before a separator token or a fully
qualified name, those that a seam drops aside. -/
theorem names_single_iff {text : Text} (h : text.size < UInt32.size) (shortTags : Bool)
    (name : Text) :
    (∀ e ∈ (ImportReport.ofText shortTags name text).table.entries, ¬ e.2.HasDouble) ↔
      ∀ x : Spelling, x.DecidesIn
          (importSpellings (skipOpening (ImportReport.ofText shortTags name text).pieces)) →
        x.IsSeamless := by
  let pieces := skipOpening (text.unifyLineEndings.lex shortTags).pieces
  have hparts : ∀ x ∈ importSpellings pieces, x.PartsAll fun p => IsNamePart p.kind p.text :=
    partsAll_of_mem_importSpellings fun p hp hpart =>
      isNamePart_of_mem_lex (List.mem_of_mem_drop hp) hpart
  rw [ImportReport.ofText_of_lt h]
  change (∀ e ∈ (FileImports.ofPieces pieces).table.entries, _) ↔
    ∀ x : Spelling, x.DecidesIn (importSpellings pieces) → _
  constructor
  · intro hsingle x hx
    rw [Spelling.isSeamless_iff (hparts x hx.mem)]
    exact hsingle x.clause.entry (mem_entries_iff_spelled.2 ⟨x, hx, rfl⟩)
  · intro hseamless e he
    obtain ⟨x, hx, rfl⟩ := mem_entries_iff_spelled.1 he
    exact (Spelling.isSeamless_iff (hparts x hx.mem)).1 (hseamless x hx)

/-- A member that starts with a separator, which the seam drops. -/
theorem names_single_iff_seam :
    let text : Text := "<?php use A\\\x7b\\B, C as D\x7d;".toList
    let report := ImportReport.ofText false "a.php".toList text
    text.size < UInt32.size ∧
      report.table.entries =
        [("B".toList, "\\A\\B".toList), ("D".toList, "\\A\\C".toList)] ∧
      (∀ e ∈ report.table.entries, ¬ e.2.HasDouble) ∧
      ∀ x : Spelling, x.DecidesIn (importSpellings (skipOpening report.pieces)) →
        x.IsSeamless := by
  intro text report
  have hsize : text.size < UInt32.size := by decide
  have hentries : report.table.entries =
      [("B".toList, "\\A\\B".toList), ("D".toList, "\\A\\C".toList)] := by decide +kernel
  have hsingle : ∀ e ∈ report.table.entries, ¬ e.2.HasDouble := by
    rw [hentries]
    decide
  exact ⟨hsize, hentries, hsingle, (names_single_iff hsize false "a.php".toList).1 hsingle⟩

/-- A blank between a separator and a fully qualified name leaves both separators in the name. -/
theorem hasDouble_of_blank_after_separator :
    ¬ ∀ e ∈ (ImportReport.ofText false "a.php".toList
      "<?php use A\\ \\B;".toList).table.entries, ¬ e.2.HasDouble := by
  decide +kernel

end PhpImports
