import PhpImports.Proofs.Lexeme.LookAlike
import PhpImports.Proofs.Text.WholeEnding

/-!
# Line endings of heredocs

The opener of a heredoc ends with a line ending and its body is read line by line, so line endings
are part of what a heredoc is. In a text without a lone CR they may be unified all the same: the
label, the line that closes the heredoc and what comes behind it stay (`heredoc?_unify`).
-/

namespace PhpImports

open Text (LookAlike WholeEndings unifyLineEndings)

/-- A text and its unified form differ in what line endings hide. -/
theorem Text.lookAlike_unify (s : Text) : LookAlike s s.unifyLineEndings := by
  induction s with
  | nil => exact .nil
  | cons c s ih =>
    by_cases hc : c = '\r'
    · subst hc
      obtain ⟨r, hr⟩ := exists_unifyLineEndings_cr s
      rw [hr]
      exact .cover (by decide) (by decide) rfl
    · rw [unifyLineEndings_char hc]
      exact .cons c ih

namespace Lexeme

/-- What a heredoc is labelled with. -/
def IsLabel (label : Text) : Prop :=
  label ≠ [] ∧ ∀ c ∈ label, isLabelChar c = true

variable {label s : Text}

namespace HeredocOpener

theorem readQuote_unify (s : Text) :
    readQuote (unifyLineEndings s) = ((readQuote s).1, unifyLineEndings (readQuote s).2) := by
  cases s with
  | nil => rfl
  | cons c s =>
    by_cases hc : c = '\r'
    · subst hc
      obtain ⟨r, hr⟩ := Text.exists_unifyLineEndings_cr s
      have hplain : readQuote ('\r' :: s) = (none, '\r' :: s) := rfl
      rw [hplain, hr]
      rfl
    · rw [Text.unifyLineEndings_char hc, readQuote, readQuote]
      split
      · rfl
      · rw [Text.unifyLineEndings_char hc]

theorem quote_of_readQuote {q : Char} (h : (readQuote s).1 = some q) : q = '\'' ∨ q = '"' := by
  cases s with
  | nil => cases h
  | cons c s =>
    rw [readQuote] at h
    split at h
    · next hc =>
      obtain rfl := Option.some.inj h
      exact hc
    · cases h

theorem readClosingQuote?_unify {quote : Option Char} (hquote : ∀ q ∈ quote, q = '\'' ∨ q = '"')
    (h : WholeEndings s) : readClosingQuote? quote (unifyLineEndings s) =
      (readClosingQuote? quote s).map unifyLineEndings := by
  cases quote with
  | none => rfl
  | some q =>
    have hplain : '\r' ≠ q ∧ '\n' ≠ q := by
      rcases hquote q rfl with rfl | rfl <;> decide
    cases h with
    | nil => rfl
    | crlf hrest =>
      rw [Text.unifyLineEndings_crlf, readClosingQuote?, readClosingQuote?, if_neg hplain.1,
        if_neg hplain.2]
      rfl
    | @char c s hc hrest =>
      rw [Text.unifyLineEndings_char hc, readClosingQuote?, readClosingQuote?]
      split <;> rfl

theorem readLineEnding?_unify (h : WholeEndings s) : readLineEnding? (unifyLineEndings s) =
    (readLineEnding? s).map fun x => (['\n'], unifyLineEndings x.2) := by
  cases h with
  | nil => rfl
  | crlf hrest =>
    rw [Text.unifyLineEndings_crlf]
    rfl
  | @char c s hc hrest =>
    rw [Text.unifyLineEndings_char hc]
    by_cases hlf : c = '\n'
    · subst hlf
      rfl
    · have hnone : ∀ r : Text, readLineEnding? (c :: r) = none := by
        intro r
        rw [readLineEnding?.eq_def]
        split
        · next hs => exact absurd (List.cons.inj hs).1 hlf
        · next hs => exact absurd (List.cons.inj hs).1 hc
        · rfl
      rw [hnone, hnone]
      rfl

/-- The parts of an opener are of the characters that belong there. -/
structure IsOpener (o : HeredocOpener) : Prop where
  indent : ∀ c ∈ o.indent, isIndent c = true
  quote : ∀ q ∈ o.quote, q = '\'' ∨ q = '"'
  starts : o.label.startsLabel = true
  label : ∀ c ∈ o.label, isLabelChar c = true
  lineEnding : o.lineEnding = ['\n'] ∨ o.lineEnding = ['\r', '\n']

variable {o : HeredocOpener} {body : Text}

theorem IsOpener.isLabel (h : o.IsOpener) : IsLabel o.label := by
  refine ⟨?_, h.label⟩
  intro hnil
  have hstarts := h.starts
  rw [hnil] at hstarts
  cases hstarts

theorem lineEnding_of_readLineEnding? {e r : Text} (h : readLineEnding? s = some (e, r)) :
    e = ['\n'] ∨ e = ['\r', '\n'] := by
  rw [readLineEnding?.eq_def] at h
  split at h
  · cases h
    exact Or.inl rfl
  · cases h
    exact Or.inr rfl
  · cases h

theorem startsLabel_takeWhile (h : s.startsLabel = true) :
    Text.startsLabel (s.takeWhile isLabelChar) = true := by
  cases s with
  | nil => cases h
  | cons c s =>
    have hc : isLabelStart c = true := h
    rw [List.takeWhile_cons, if_pos (isLabelChar_of_isLabelStart hc)]
    exact hc

theorem read?_isOpener (h : read? s = some (o, body)) : o.IsOpener := by
  have hquote := @quote_of_readQuote (s.dropWhile isIndent)
  rw [read?] at h
  simp only at h
  split at h
  · next hstart =>
    split at h
    · cases h
    · split at h
      · cases h
      · next hending =>
        cases h
        exact ⟨List.all_eq_true.1 List.all_takeWhile, fun q hq => hquote hq,
          startsLabel_takeWhile hstart, List.all_eq_true.1 List.all_takeWhile,
          lineEnding_of_readLineEnding? hending⟩
  · cases h

/-- The label and the text below the opener. -/
theorem read?_unify (h : WholeEndings s) :
    (read? (unifyLineEndings s)).map (fun x => (x.1.label, x.2)) =
      (read? s).map fun x => (x.1.label, unifyLineEndings x.2) := by
  obtain ⟨-, hindent⟩ := h.takeWhile_unify (p := isIndent) rfl rfl
  have hline : WholeEndings (s.dropWhile isIndent) := by
    rw [← List.takeWhile_append_dropWhile (p := isIndent) (l := s)] at h
    exact h.right
  have happend := readQuote_append (s.dropWhile isIndent)
  have hquote := @quote_of_readQuote (s.dropWhile isIndent)
  rw [read?, read?, hindent, readQuote_unify]
  generalize readQuote (s.dropWhile isIndent) = x at happend hquote ⊢
  obtain ⟨quote, r⟩ := x
  simp only at happend hquote ⊢
  rw [← happend] at hline
  obtain ⟨hlabel, hbehind⟩ := hline.right.takeWhile_unify (p := isLabelChar) rfl rfl
  have hrest : WholeEndings (r.dropWhile isLabelChar) := by
    have hr := hline.right
    rw [← List.takeWhile_append_dropWhile (p := isLabelChar) (l := r)] at hr
    exact hr.right
  rw [Text.startsLabel_unifyLineEndings, hlabel, hbehind,
    readClosingQuote?_unify (fun q hq => hquote hq) hrest]
  cases hstart : r.startsLabel with
  | false => rfl
  | true =>
    cases hclosing : readClosingQuote? quote (r.dropWhile isLabelChar) with
    | none => rfl
    | some r' =>
      rw [← readClosingQuote?_append hclosing] at hrest
      simp only [Option.map_some, readLineEnding?_unify hrest.right]
      cases readLineEnding? r' <;> rfl

end HeredocOpener

/-- Labels are made of characters that cover nothing. -/
theorem IsLabel.clear (h : IsLabel label) : ∀ c ∈ label, c ∉ covers := by
  intro c hc hcover
  have hnone : ∀ c ∈ covers, isLabelChar c = false := by decide
  have hchar := h.2 c hc
  rw [hnone c hcover] at hchar
  cases hchar

/-- Behind its indentation, the line that closes a heredoc starts with the label. -/
theorem closesHeredoc_iff : closesHeredoc label s = true ↔
    ∃ x, s.dropWhile isIndent = label ++ x ∧ x.head?.any isLabelChar = false := by
  rw [closesHeredoc]
  simp only [Bool.and_eq_true, Bool.not_eq_true']
  constructor
  · rintro ⟨hstart, hends⟩
    obtain ⟨x, hx⟩ := Text.startsWith_iff.1 hstart
    rw [hx, List.drop_left] at hends
    exact ⟨x, hx, hends⟩
  · rintro ⟨x, hx, hends⟩
    rw [hx, List.drop_left]
    exact ⟨Text.startsWith_iff.2 ⟨x, rfl⟩, hends⟩

theorem closesHeredoc_unify (hlabel : IsLabel label) (h : WholeEndings s) :
    closesHeredoc label (unifyLineEndings s) = closesHeredoc label s := by
  obtain ⟨-, hindent⟩ := h.takeWhile_unify (p := isIndent) rfl rfl
  have hline := Text.lookAlike_unify (s.dropWhile isIndent)
  rw [closesHeredoc, closesHeredoc, hindent, ← hline.startsWith hlabel.clear]
  cases hstart : Text.startsWith (s.dropWhile isIndent) label with
  | false => rfl
  | true =>
    obtain ⟨x, hx⟩ := Text.startsWith_iff.1 hstart
    obtain ⟨-, hrest⟩ := hline.drop ⟨x, hx.symm⟩ hlabel.clear
    rw [hrest.any_head? (p := isLabelChar) (by decide)]

/-- A line ending does not close a heredoc. -/
theorem not_closesHeredoc (hlabel : IsLabel label) {c : Char} (hc : isIndent c = false)
    (hlabelChar : isLabelChar c = false) (s : Text) : closesHeredoc label (c :: s) = false := by
  rw [Bool.eq_false_iff]
  intro hcloses
  obtain ⟨x, hx, -⟩ := closesHeredoc_iff.1 hcloses
  rw [List.dropWhile_cons_of_neg (by simp [hc])] at hx
  obtain ⟨hne, hchars⟩ := hlabel
  cases label with
  | nil => exact hne rfl
  | cons d label =>
    obtain ⟨rfl, -⟩ := List.cons.inj hx
    rw [hchars c List.mem_cons_self] at hlabelChar
    cases hlabelChar

/-- The line that closes a heredoc stays that line. -/
theorem heredocLines_unify (hlabel : IsLabel label) (h : WholeEndings s) (seen seen' : Text)
    (atLineStart : Bool) :
    (heredocLines.go label seen' atLineStart (unifyLineEndings s)).2 =
      unifyLineEndings (heredocLines.go label seen atLineStart s).2 := by
  induction h generalizing seen seen' atLineStart with
  | nil => rfl
  | @crlf s _ ih =>
    have hcr := not_closesHeredoc hlabel (c := '\r') rfl rfl
    have hlf := not_closesHeredoc hlabel (c := '\n') rfl rfl
    rw [Text.unifyLineEndings_crlf, heredocLines.go, heredocLines.go, heredocLines.go, hcr, hlf,
      hlf]
    simp only [Bool.and_false, Bool.false_eq_true, if_false]
    exact ih _ _ _
  | @char c s hc hrest ih =>
    have hcloses := closesHeredoc_unify hlabel (.char hc hrest)
    rw [Text.unifyLineEndings_char hc] at hcloses
    rw [Text.unifyLineEndings_char hc, heredocLines.go, heredocLines.go, hcloses]
    split
    · rw [Text.unifyLineEndings_char hc]
    · exact ih _ _ _

theorem heredocLines_stop (label seen : Text) (atLineStart : Bool) (s : Text) :
    (heredocLines.go label seen atLineStart s).2 = [] ∨
      closesHeredoc label (heredocLines.go label seen atLineStart s).2 = true := by
  induction s generalizing seen atLineStart with
  | nil => exact Or.inl rfl
  | cons c s ih =>
    rw [heredocLines.go]
    split
    · next hcloses => exact Or.inr (Bool.and_eq_true_iff.1 hcloses).2
    · exact ih _ _

/-- A body runs to the end of the text, or it ends with the label of a line. -/
theorem heredocBody_cases (label s : Text) :
    (heredocLines label s).2 = [] ∧ (heredocBody label s).2 = none ∨
      (heredocLines label s).2 ≠ [] ∧
        ∃ x, (heredocLines label s).2.dropWhile isIndent = label ++ x ∧
          x.head?.any isLabelChar = false ∧
          heredocBody label s =
            ((heredocLines label s).1 ++ (heredocLines label s).2.takeWhile isIndent ++ label,
              some x) := by
  have hstop : (heredocLines label s).2 = [] ∨
      closesHeredoc label (heredocLines label s).2 = true := heredocLines_stop label [] true s
  rw [heredocBody]
  generalize heredocLines label s = lines at hstop ⊢
  obtain ⟨body, rest⟩ := lines
  simp only at hstop ⊢
  by_cases hnil : rest = []
  · exact Or.inl ⟨hnil, if_pos hnil⟩
  · right
    obtain ⟨x, hx, hends⟩ := closesHeredoc_iff.1 (hstop.resolve_left hnil)
    have hrest : rest = rest.takeWhile isIndent ++ (label ++ x) := by
      rw [← hx, List.takeWhile_append_dropWhile]
    refine ⟨hnil, x, hx, hends, ?_⟩
    rw [if_neg hnil]
    generalize rest.takeWhile isIndent = indent at hrest ⊢
    rw [hrest, List.take_length_add_append, List.drop_length_add_append, List.take_left,
      List.drop_left, List.append_assoc]

theorem heredocBody_unify (hlabel : IsLabel label) (h : WholeEndings s) :
    (heredocBody label (unifyLineEndings s)).2 =
      (heredocBody label s).2.map unifyLineEndings := by
  have hlines : (heredocLines label (unifyLineEndings s)).2 =
      unifyLineEndings (heredocLines label s).2 := heredocLines_unify hlabel h [] [] true
  have happend := heredocLines_go_append label [] true s
  have hwhole : WholeEndings (heredocLines label s).2 := by
    have hs : s = (heredocLines label s).1 ++ (heredocLines label s).2 := happend.symm
    rw [hs] at h
    exact h.right
  have hcr : ∀ c ∈ label, c ≠ '\r' := by
    rintro c hc rfl
    exact hlabel.clear _ hc (by decide)
  rcases heredocBody_cases label s with ⟨hnil, hnone⟩ | ⟨hne, x, hx, -, hclosed⟩
  · rcases heredocBody_cases label (unifyLineEndings s) with ⟨-, hnone'⟩ | ⟨hne', -⟩
    · rw [hnone, hnone']
      rfl
    · rw [hlines, hnil] at hne'
      exact absurd rfl hne'
  · rcases heredocBody_cases label (unifyLineEndings s) with ⟨hnil', -⟩ | ⟨-, x', hx', -, hclosed'⟩
    · rw [hlines, Text.unifyLineEndings_eq_nil] at hnil'
      exact absurd hnil' hne
    · obtain ⟨-, hdrop⟩ := hwhole.takeWhile_unify (p := isIndent) rfl rfl
      rw [hlines, hdrop, hx, Text.unifyLineEndings_append_of_notMem fun hm => hcr _ hm rfl] at hx'
      rw [hclosed, hclosed', Option.map_some, List.append_cancel_left hx']

/-- What is known of a heredoc: its label, and the text below its opener. -/
theorem exists_of_heredoc? {l : Lexeme} {x : Text} (hreads : heredoc? s = some (l, x)) :
    ∃ o body, HeredocOpener.read? s = some (o, body) ∧ x = (heredocBody o.label body).2.getD [] ∧
      l.kind = .heredoc ∧ l.text = o.text ++ (heredocBody o.label body).1 ∧
      l.fault = if (heredocBody o.label body).2.isSome then none
        else some (.unterminatedHeredoc o.label) := by
  obtain ⟨⟨o, body⟩, ho, henclosed⟩ := Option.map_eq_some_iff.1 hreads
  simp only [enclosed_eq, Prod.mk.injEq] at henclosed
  obtain ⟨rfl, rfl⟩ := henclosed
  exact ⟨o, body, ho, rfl, rfl, rfl, rfl⟩

/-- Where a heredoc is read, one with the same label is read in the unified text, and what comes
behind it is unified. -/
theorem heredoc?_unify {l : Lexeme} {x : Text} (h : WholeEndings s)
    (hreads : heredoc? s = some (l, x)) :
    ∃ l', heredoc? (unifyLineEndings s) = some (l', unifyLineEndings x) ∧ l'.kind = l.kind ∧
      l'.fault = l.fault := by
  obtain ⟨o, body, ho, rfl, hkind, -, hfault⟩ := exists_of_heredoc? hreads
  have hbody : WholeEndings body := by
    have hwhole : WholeEndings (o.text ++ body) := by
      rw [HeredocOpener.read?_append ho]
      exact .char (by decide) (.char (by decide) (.char (by decide) h))
    exact hwhole.right
  have hlabels := HeredocOpener.read?_unify h
  rw [ho, Option.map_some, Option.map_eq_some_iff] at hlabels
  obtain ⟨⟨o', body'⟩, ho', hsame⟩ := hlabels
  obtain ⟨hlabel, rfl⟩ := Prod.mk.inj hsame
  simp only at hlabel
  have hrest := heredocBody_unify ((HeredocOpener.read?_isOpener ho).isLabel) hbody
  have hread : heredoc? (unifyLineEndings s) =
      some (enclosed .heredoc (.unterminatedHeredoc o'.label) o'.text
        (heredocBody o'.label (unifyLineEndings body))) := by
    rw [heredoc?, ho']
    rfl
  rw [enclosed_eq, hlabel, hrest, Option.isSome_map] at hread
  refine ⟨{ kind := .heredoc, text := o'.text ++ (heredocBody o.label (unifyLineEndings body)).1,
            fault := l.fault }, ?_, hkind.symm, rfl⟩
  rw [hread, hfault]
  cases (heredocBody o.label body).2 <;> rfl

theorem isNone_heredoc?_unify (h : WholeEndings s) :
    (heredoc? (unifyLineEndings s)).isNone = (heredoc? s).isNone := by
  have hlabels := congrArg Option.isNone (HeredocOpener.read?_unify h)
  rw [Option.isNone_map, Option.isNone_map] at hlabels
  rw [heredoc?, heredoc?, Option.isNone_map, Option.isNone_map, hlabels]

/-- No heredoc ends between CR and LF. -/
theorem getLast?_heredoc? {l : Lexeme} {x : Text} (hreads : heredoc? s = some (l, x))
    (hx : x ≠ []) : l.text.getLast? ≠ some '\r' := by
  obtain ⟨o, body, ho, rfl, -, htext, -⟩ := exists_of_heredoc? hreads
  have hlabel := (HeredocOpener.read?_isOpener ho).isLabel
  rcases heredocBody_cases o.label body with ⟨-, hnone⟩ | ⟨-, x, -, -, hclosed⟩
  · rw [hnone] at hx
    exact absurd rfl hx
  · intro hlast
    rw [htext, hclosed, ← List.append_assoc, List.getLast?_append_of_ne_nil _ hlabel.1] at hlast
    exact hlabel.clear _ (List.mem_of_getLast? hlast) (by decide)

end Lexeme
end PhpImports
