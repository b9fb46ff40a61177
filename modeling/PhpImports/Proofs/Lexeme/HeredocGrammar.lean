import PhpImports.Proofs.Lexeme.Heredoc

/-!
# What opens and what closes a heredoc

An opener is read exactly where its parts stand one after the other (`read?_iff`), so a text opens
at most one heredoc. The body runs to the end of the text if no line of it starts with the label,
and else it ends with such a label (`heredocBody_eq_none_iff`, `holdsLabel_of_heredocBody`).
-/

namespace PhpImports.Lexeme

variable {label s : Text}

theorem IsLabel.isIndent_append (h : IsLabel label) (x : Text) :
    (label ++ x).head?.any isIndent = false := by
  obtain ⟨c, label, rfl⟩ := List.exists_cons_of_ne_nil h.1
  have hc := h.2 c List.mem_cons_self
  rw [Bool.eq_false_iff]
  intro hindent
  have hblank : c = ' ' ∨ c = '\t' := by simpa [isIndent] using hindent
  rcases hblank with rfl | rfl <;> cases hc

namespace HeredocOpener

variable {o : HeredocOpener} {body : Text}

theorem readQuote_append_label (h : o.IsOpener) (x : Text) :
    readQuote (o.quote.toList ++ (o.label ++ x)) = (o.quote, o.label ++ x) := by
  cases hquote : o.quote with
  | some q =>
    rw [Option.toList_some, List.singleton_append, readQuote, if_pos (h.quote q hquote)]
  | none =>
    obtain ⟨c, label, hlabel⟩ := List.exists_cons_of_ne_nil h.isLabel.1
    have hc : isLabelStart c = true := by
      have hstarts := h.starts
      rwa [hlabel] at hstarts
    have hplain : ¬ (c = '\'' ∨ c = '"') := by
      rintro (rfl | rfl) <;> cases hc
    rw [hlabel, Option.toList_none, List.nil_append, List.cons_append, readQuote, if_neg hplain]

/-- Where the parts of an opener stand one after the other, it is read. -/
theorem IsOpener.read? (h : o.IsOpener) (body : Text) :
    read? (o.indent ++ (o.quote.toList ++ (o.label ++ (o.quote.toList ++ (o.lineEnding ++ body)))))
      = some (o, body) := by
  have hline : readLineEnding? (o.lineEnding ++ body) = some (o.lineEnding, body) := by
    rcases h.lineEnding with hline | hline <;> rw [hline] <;> rfl
  have hends : (o.quote.toList ++ (o.lineEnding ++ body)).head?.any isLabelChar = false := by
    cases hquote : o.quote with
    | none => rcases h.lineEnding with hline | hline <;> rw [hline] <;> rfl
    | some q => rcases h.quote q hquote with rfl | rfl <;> rfl
  have hunquoted : readClosingQuote? o.quote (o.quote.toList ++ (o.lineEnding ++ body)) =
      some (o.lineEnding ++ body) := by
    cases o.quote with
    | none => rfl
    | some q => exact if_pos rfl
  have hstarts : (o.quote.toList ++
      (o.label ++ (o.quote.toList ++ (o.lineEnding ++ body)))).head?.any isIndent = false := by
    cases hquote : o.quote with
    | some q => rcases h.quote q hquote with rfl | rfl <;> rfl
    | none => exact h.isLabel.isIndent_append _
  obtain ⟨hindent, hrest⟩ := Text.takeWhile_append_eq h.indent hstarts
  obtain ⟨hlabel, hbehind⟩ := Text.takeWhile_append_eq h.label hends
  have hlabelled : (o.label ++ (o.quote.toList ++ (o.lineEnding ++ body))).startsLabel = true := by
    rw [Text.startsLabel_append h.isLabel.1]
    exact h.starts
  rw [HeredocOpener.read?, hindent, hrest, readQuote_append_label h]
  simp only [hlabelled, if_true, hlabel, hbehind, hunquoted, hline]

/-- An opener and a body are read exactly from the text that they make up. -/
theorem read?_iff : read? s = some (o, body) ↔ o.IsOpener ∧ o.text ++ body = "<<<".toList ++ s := by
  constructor
  · exact fun h => ⟨read?_isOpener h, read?_append h⟩
  · rintro ⟨hopener, happend⟩
    rw [text_eq, List.append_assoc] at happend
    rw [← List.append_cancel_left happend, List.append_assoc, List.append_assoc, List.append_assoc,
      List.append_assoc]
    exact hopener.read? body

end HeredocOpener

/-- Below `above`, a line starts with the label and no label character behind it, indented or not. -/
structure ClosingLine (label body above indent x : Text) : Prop where
  splits : body = above ++ (indent ++ (label ++ x))
  line : above = [] ∨ above.getLast? = some '\n'
  indent : ∀ c ∈ indent, isIndent c = true
  ends : x.head?.any isLabelChar = false

/-- Some line of the body closes it. -/
def HoldsLabel (label body : Text) : Prop :=
  ∃ above indent x, ClosingLine label body above indent x

theorem closesHeredoc_of_label (hlabel : IsLabel label) {indent x : Text}
    (hindent : ∀ c ∈ indent, isIndent c = true) (hx : x.head?.any isLabelChar = false) :
    closesHeredoc label (indent ++ (label ++ x)) = true := by
  have hlabelled := (Text.takeWhile_append_eq hindent (hlabel.isIndent_append x)).2
  exact closesHeredoc_iff.2 ⟨x, hlabelled, hx⟩

/-- Reading does not go past a line that closes the heredoc. -/
theorem length_lines_le (seen : Text) (atLineStart : Bool) {above r : Text} {c : Char}
    (hsplit : s = above ++ c :: r)
    (hline : above = [] ∧ atLineStart = true ∨ above.getLast? = some '\n')
    (hcloses : closesHeredoc label (c :: r) = true) :
    (heredocLines.go label seen atLineStart s).1.length ≤ seen.length + above.length := by
  induction s generalizing seen atLineStart above with
  | nil => cases above <;> cases hsplit
  | cons d s ih =>
    rw [heredocLines.go]
    split
    · rw [List.length_reverse]
      exact Nat.le_add_right _ _
    · next hopen =>
      cases above with
      | nil =>
        obtain ⟨rfl, rfl⟩ := List.cons.inj hsplit
        rcases hline with ⟨-, rfl⟩ | hline
        · exact absurd hcloses (by simpa using hopen)
        · cases hline
      | cons a above =>
        obtain ⟨rfl, hs⟩ := List.cons.inj hsplit
        have hlast : (d :: above).getLast? = some '\n' :=
          hline.resolve_left fun hnil => absurd hnil.1 (List.cons_ne_nil _ _)
        have hbehind : above = [] ∧ decide (d = '\n') = true ∨ above.getLast? = some '\n' := by
          cases above with
          | nil => exact Or.inl ⟨rfl, by simpa using hlast⟩
          | cons b above => exact Or.inr (by rwa [List.getLast?_cons_cons] at hlast)
        have hrest := ih (d :: seen) (decide (d = '\n')) hs hbehind
        rw [List.length_cons] at hrest ⊢
        omega

theorem ClosingLine.length_lines_le (hlabel : IsLabel label) {above indent x : Text}
    (h : ClosingLine label s above indent x) :
    (heredocLines label s).1.length ≤ above.length := by
  have hcloses := closesHeredoc_of_label hlabel h.indent h.ends
  have hne : indent ++ (label ++ x) ≠ [] := by simp [hlabel.1]
  have hsplit := h.splits
  obtain ⟨c, r, hcr⟩ := List.exists_cons_of_ne_nil hne
  rw [hcr] at hcloses hsplit
  have hle := Lexeme.length_lines_le [] true hsplit
    (h.line.imp_left fun hnil => ⟨hnil, rfl⟩) hcloses
  rwa [List.length_nil, Nat.zero_add] at hle

/-- A line that closes the heredoc starts the body or comes after a line ending. -/
theorem lineStart_of_lines {seen : Text} {atLineStart : Bool}
    (hstart : atLineStart = true → seen = [] ∨ seen.head? = some '\n')
    (h : (heredocLines.go label seen atLineStart s).2 ≠ []) :
    (heredocLines.go label seen atLineStart s).1 = [] ∨
      (heredocLines.go label seen atLineStart s).1.getLast? = some '\n' := by
  induction s generalizing seen atLineStart with
  | nil => exact absurd rfl h
  | cons c s ih =>
    rw [heredocLines.go] at h ⊢
    split at h
    · next hcloses =>
      rw [if_pos hcloses]
      rw [Bool.and_eq_true] at hcloses
      simpa using hstart hcloses.1
    · next hopen =>
      rw [if_neg hopen]
      refine ih ?_ h
      intro hc
      rw [decide_eq_true_iff] at hc
      exact Or.inr (by rw [hc]; rfl)

/-- The line that closes a heredoc, and how far the body goes. -/
theorem exists_of_lines (hne : (heredocLines label s).2 ≠ []) :
    ∃ indent x, ClosingLine label s (heredocLines label s).1 indent x ∧
      heredocBody label s = ((heredocLines label s).1 ++ (indent ++ label), some x) := by
  have happend := heredocLines_go_append label [] true s
  rcases heredocBody_cases label s with ⟨hnil, -⟩ | ⟨-, x, hx, hends, hclosed⟩
  · exact absurd hnil hne
  · refine ⟨(heredocLines label s).2.takeWhile isIndent, x, ⟨?_,
      lineStart_of_lines (fun _ => Or.inl rfl) hne, List.all_eq_true.1 List.all_takeWhile, hends⟩,
      ?_⟩
    · rw [← hx, List.takeWhile_append_dropWhile]
      exact happend.symm
    · rw [hclosed, List.append_assoc]

theorem lines_eq_nil_iff : (heredocLines label s).2 = [] ↔ (heredocBody label s).2 = none := by
  rcases heredocBody_cases label s with ⟨hnil, hnone⟩ | ⟨hne, x, -, -, hclosed⟩
  · simp [hnil, hnone]
  · simp [hne, hclosed]

/-- A body runs to the end of the text exactly if no line of it starts with the label. -/
theorem heredocBody_eq_none_iff (hlabel : IsLabel label) :
    (heredocBody label s).2 = none ↔ ¬ HoldsLabel label s := by
  rw [← lines_eq_nil_iff]
  constructor
  · rintro hnil ⟨above, indent, x, hcloses⟩
    have happend : (heredocLines label s).1 ++ (heredocLines label s).2 = s :=
      heredocLines_go_append label [] true s
    have hle := hcloses.length_lines_le hlabel
    have hlength := congrArg List.length hcloses.splits
    have hpos := List.length_pos_iff.2 hlabel.1
    rw [hnil, List.append_nil] at happend
    rw [happend] at hle
    simp only [List.length_append] at hlength
    omega
  · intro hnot
    by_contra hne
    obtain ⟨indent, x, hcloses, -⟩ := exists_of_lines hne
    exact hnot ⟨_, indent, x, hcloses⟩

/-- A body that does not run to the end of the text ends with its label. -/
theorem holdsLabel_of_heredocBody (h : (heredocBody label s).2 ≠ none) :
    HoldsLabel label (heredocBody label s).1 := by
  obtain ⟨indent, x, hcloses, hclosed⟩ := exists_of_lines (mt lines_eq_nil_iff.1 h)
  rw [hclosed]
  exact ⟨_, indent, [], ⟨by rw [List.append_nil], hcloses.line, hcloses.indent, rfl⟩⟩

/-- A body with a line that starts with the label ends with the label of the first such line. -/
theorem HoldsLabel.heredocBody (hlabel : IsLabel label) (h : HoldsLabel label s) :
    ∃ above indent x, ClosingLine label s above indent x ∧
      (∀ above' indent' x', ClosingLine label s above' indent' x' →
        above.length ≤ above'.length) ∧
      heredocBody label s = (above ++ (indent ++ label), some x) := by
  have hclosed : (Lexeme.heredocBody label s).2 ≠ none := fun hnone =>
    (heredocBody_eq_none_iff hlabel).1 hnone h
  obtain ⟨indent, x, hcloses, hbody⟩ := exists_of_lines (mt lines_eq_nil_iff.1 hclosed)
  exact ⟨_, indent, x, hcloses, fun _ _ _ h' => h'.length_lines_le hlabel, hbody⟩

end PhpImports.Lexeme
