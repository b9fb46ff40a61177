import PhpImports.Proofs.Token.Reading

/-!
# Comments of a text

A line comment goes on to the end of its line or to a close tag, which is the next token then. A
block comment goes on to the first closing mark behind its opening one; if there is none, it takes
all of the text, and this is an error (`comment_token`).
-/

namespace PhpImports

namespace Lexeme

/-- A line comment `a` in front of `x` ends where its line or the code does. -/
structure LineExtent (a x : Text) : Prop where
  noLineFeed : '\n' ∉ a
  noCarriageReturn : '\r' ∉ a
  noCloseTag : ¬ ['?', '>'] <:+: a
  noAttribute : ¬ ['#', '['] <+: a ++ x
  ends : x = [] ∨ x.head? = some '\n' ∨ x.head? = some '\r' ∨ ['?', '>'] <+: x

/-- Behind the opening mark of a block comment, the first closing mark comes after `body`. -/
structure BlockExtent (body rest : Text) : Prop where
  closes : body ++ ['*', '/'] <+: rest
  first : ∀ p, p ++ ['*', '/'] <+: rest → body.length ≤ p.length

variable {afterAccess shortTags : Bool} {l : Lexeme} {a body x : Text}

theorem prefix_of_opensLine (h : opensLine a = true) : ['/', '/'] <+: a ∨ ['#'] <+: a := by
  rcases opensLine_cases h with ⟨r, rfl⟩ | ⟨r, rfl, -⟩
  · exact Or.inl ⟨r, rfl⟩
  · exact Or.inr ⟨r, rfl⟩

theorem ends_of_endsLineComment (h : endsLineComment x = true) :
    x.head? = some '\n' ∨ x.head? = some '\r' ∨ ['?', '>'] <+: x := by
  cases x with
  | nil => cases h
  | cons c x =>
    simp only [endsLineComment, Bool.or_eq_true, Bool.and_eq_true, decide_eq_true_iff] at h
    rcases h with (rfl | rfl) | ⟨rfl, hhead⟩
    · exact Or.inl rfl
    · exact Or.inr (Or.inl rfl)
    · obtain ⟨r, rfl⟩ := List.head?_eq_some_iff.1 hhead
      exact Or.inr (Or.inr ⟨r, rfl⟩)

theorem lineExtent (hopens : opensLine a = true)
    (hline : '\n' ∉ a ∧ '\r' ∉ a ∧ ¬ ['?', '>'] <:+: a)
    (hends : x = [] ∨ endsLineComment x = true) : LineExtent a x := by
  have hbehind := hends.imp_right ends_of_endsLineComment
  refine ⟨hline.1, hline.2.1, hline.2.2, ?_, hbehind⟩
  rintro ⟨y, hy⟩
  rcases opensLine_cases hopens with ⟨r, rfl⟩ | ⟨r, rfl, hhead⟩
  · exact absurd (List.cons.inj hy).1 (by decide)
  · have hrest : '[' :: y = r ++ x := (List.cons.inj hy).2
    exact head?_ne_bracket hhead hends (congrArg List.head? hrest).symm

/-- A body that holds no closing mark ends with the first one. -/
theorem blockExtent (h : ¬ ['*', '/'] <:+: body) (x : Text) :
    BlockExtent body (body ++ ['*', '/'] ++ x) := by
  refine ⟨List.prefix_append _ x, ?_⟩
  rintro p ⟨q, hsplit⟩
  rw [List.append_assoc, List.append_assoc, eq_comm] at hsplit
  rcases List.append_eq_append_iff.1 hsplit with ⟨_, rfl, -⟩ | ⟨b, rfl, hmark⟩
  · rw [List.length_append]
    exact Nat.le_add_right _ _
  · match b with
    | [] => rw [List.append_nil]
    | [c] =>
      -- The star of one mark would be the slash of the other.
      have hstar := List.cons.inj (List.cons.inj hmark).2
      cases hstar.1
    | c :: d :: b =>
      obtain ⟨rfl, hslash⟩ := List.cons.inj hmark
      obtain ⟨rfl, -⟩ := List.cons.inj hslash
      exact absurd ⟨p, b, by simp⟩ h

/-- A block comment documents the code if a star and a blank are behind its opening mark. -/
theorem blockKind_iff : blockKind body = .docComment ↔
    ∃ c, c ∈ [' ', '\t', '\n', '\r'] ∧ ['/', '*', '*', c] <+: ['/', '*'] ++ body := by
  have hblanks : ∀ c, isBlank c = true ↔ c ∈ [' ', '\t', '\n', '\r'] := by
    simp [isBlank, isIndent, or_assoc]
  have hdoc : blockKind body = .docComment ↔ isDocBody body = true := by
    rw [blockKind]
    cases isDocBody body <;> decide
  have hmark : ∀ c, ['/', '*', '*', c] <+: ['/', '*'] ++ body ↔ ['*', c] <+: body := by
    simp [List.cons_prefix_cons]
  simp only [hdoc, hmark, ← hblanks]
  constructor
  · intro hdoc
    cases body with
    | nil => cases hdoc
    | cons d s =>
      rw [isDocBody_cons, Bool.and_eq_true, decide_eq_true_iff] at hdoc
      obtain ⟨rfl, hblank⟩ := hdoc
      cases s with
      | nil => cases hblank
      | cons c s => exact ⟨c, hblank, s, rfl⟩
  · rintro ⟨c, hblank, r, rfl⟩
    exact hblank

/-- A comment is a line comment, or a block comment that is closed or runs to the end. -/
theorem Stands.comment_cases (h : Stands afterAccess l x)
    (hkind : l.kind = .comment ∨ l.kind = .docComment) :
    (opensLine l.text = true ∧ LineExtent l.text x ∧ l.kind = .comment) ∨
    ∃ m, l.text = ['/', '*'] ++ m ∧ l.kind = blockKind m ∧
      ((∃ body, m = body ++ ['*', '/'] ∧ BlockExtent body (m ++ x) ∧ l.fault = none) ∨
        ¬ ['*', '/'] <:+: m ∧ x = [] ∧ l.fault = some .unterminatedBlockComment) := by
  have hmem : l.kind ∈ [TokenKind.comment, .docComment] := by simpa using hkind
  have hkinds : ∀ kind ∈ tableKinds, kind ∉ [TokenKind.comment, .docComment] := by decide
  cases h with
  | line hopens hline hends => exact Or.inl ⟨hopens, lineExtent hopens hline hends, rfl⟩
  | @block body x hclosed =>
    have hdoc := isDocBody_append body []
    rw [List.append_nil] at hdoc
    refine Or.inr ⟨body ++ ['*', '/'], by simp, by rw [blockKind, blockKind, hdoc], Or.inl ?_⟩
    exact ⟨body, rfl, blockExtent hclosed x, rfl⟩
  | @openBlock body hunclosed =>
    exact Or.inr ⟨body, rfl, rfl, Or.inr ⟨hunclosed, rfl, rfl⟩⟩
  | mark hlead => exact absurd hmem (hkinds _ (mem_tableKinds_of_mark hlead))
  | longMark hlong => exact absurd hmem (hkinds _ (mem_tableKinds_of_longMark hlong))
  | name _ _ => exact absurd hmem (hkinds _ (mem_tableKinds_of_name _ _))
  | heredoc hreads =>
    rw [heredoc?_kind hreads] at hmem
    exact absurd hmem (by decide)
  | _ => exact absurd hmem (by simp)

/-- Comments are part of code only. -/
theorem StandsOutside.not_comment (h : StandsOutside shortTags l x) :
    ¬ (l.kind = .comment ∨ l.kind = .docComment) := by
  cases h <;> simp

end Lexeme

open Lexeme

variable {shortTags : Bool} {t x : Text} {i : Nat} {k : Token}

/-- Where a close tag is left behind trivia of code, it is the next token. -/
theorem Lexing.Reads.exists_closeTag {l : Lexeme} (h : Lexing.Reads shortTags t i k l x)
    (ht : t.size < UInt32.size) (hk : (t.lex shortTags).tokens[i]? = some k)
    (hcode : (t.lex shortTags).modeAt i ≠ .html) (htrivia : l.kind.isTrivia = true)
    (hclose : ['?', '>'] <+: x) :
    ∃ k', (t.lex shortTags).tokens[i + 1]? = some k' ∧ k'.kind = .closeTag := by
  obtain ⟨r, rfl⟩ := hclose
  have hends : k.span.stop.toNat ≠ t.size := fun hend =>
    absurd (h.stops.eq_nil_iff.2 hend) (List.cons_ne_nil _ _)
  obtain ⟨k', hk', hstart⟩ := exists_next ht hk hends
  obtain ⟨l', x', hreads⟩ := exists_reads ht hk'
  have hnext : (t.lex shortTags).modeAt (i + 1) ≠ .html := by
    rw [h.next, Mode.after, if_pos htrivia, if_neg]
    · exact hcode
    · rintro (hkind | hkind) <;> rw [hkind] at htrivia <;> cases htrivia
  obtain ⟨afterAccess, -, hread⟩ := hreads.ofCode hnext (hstart ▸ h.stops)
  refine ⟨k', hk', ?_⟩
  rw [hreads.kind, ← congrArg (·.1.kind) hread]
  rfl

/-- A comment of a text ends where its form says. -/
theorem comment_token (ht : t.size < UInt32.size) (hk : (t.lex shortTags).tokens[i]? = some k)
    (hkind : k.kind = .comment ∨ k.kind = .docComment)
    (hbehind : Cursor.At t k.span.stop.toNat x) :
    (['/', '/'] <+: k.span.text t ∨ ['#'] <+: k.span.text t ∨
      ['/', '*'] <+: k.span.text t) ∧
    (['/', '/'] <+: k.span.text t ∨ ['#'] <+: k.span.text t →
      k.kind = .comment ∧ LineExtent (k.span.text t) x ∧
      (['?', '>'] <+: x →
        ∃ k', (t.lex shortTags).tokens[i + 1]? = some k' ∧ k'.kind = .closeTag)) ∧
    ∀ rest, k.span.text t ++ x = ['/', '*'] ++ rest →
      (['*', '/'] <:+: rest → ∃ body, BlockExtent body rest ∧
        k.span.text t = ['/', '*'] ++ body ++ ['*', '/'] ∧
        (t.lex shortTags).reportsAt k.span = []) ∧
      (¬ ['*', '/'] <:+: rest →
        k.span.text t = ['/', '*'] ++ rest ∧ k.span.stop.toNat = t.size ∧
        (t.lex shortTags).reportsAt k.span = [Cause.unterminatedBlockComment.report k.span]) ∧
      (k.kind = .docComment ↔ ∃ c, c ∈ [' ', '\t', '\n', '\r'] ∧
        ['/', '*', '*', c] <+: k.span.text t) := by
  obtain ⟨l, y, hreads⟩ := exists_reads ht hk
  obtain rfl := hbehind.eq hreads.stops
  have hstands := hreads.stands
  have hreports := hreads.reports
  rw [hreads.kind] at hkind
  rw [hreads.kind, hreads.text]
  cases hmode : (t.lex shortTags).modeAt i with
  | html =>
    rw [hmode] at hstands
    exact absurd hkind hstands.not_comment
  | code afterAccess =>
    rw [hmode] at hstands
    rcases hstands.comment_cases hkind with ⟨hopens, hextent, hline⟩ | ⟨m, htext, hblock, hends⟩
    · have htrivia : l.kind.isTrivia = true := by rw [hline]; rfl
      have hclose := hreads.exists_closeTag ht hk (by simp [hmode]) htrivia
      refine ⟨?_, fun _ => ⟨hline, hextent, hclose⟩, ?_⟩
      · exact (prefix_of_opensLine hopens).imp_right Or.inl
      · rintro rest hsplit
        rcases opensLine_cases hopens with ⟨r, hr⟩ | ⟨r, hr, -⟩ <;> simp [hr] at hsplit
    · rw [htext, hblock]
      refine ⟨Or.inr (Or.inr (List.prefix_append _ m)), ?_, ?_⟩
      · rintro (⟨r, hr⟩ | ⟨r, hr⟩) <;> simp at hr
      · intro rest hsplit
        rw [List.append_assoc] at hsplit
        obtain rfl := List.append_cancel_left hsplit
        rcases hends with ⟨body, rfl, hextent, hfault⟩ | ⟨hopen, rfl, hfault⟩
        · have hmark := (List.suffix_append body _).isInfix.trans hextent.closes.isInfix
          rw [hfault] at hreports
          exact ⟨fun _ => ⟨body, hextent, by rw [List.append_assoc], hreports⟩, absurd hmark,
            blockKind_iff⟩
        · have hstop := hreads.stops.eq_nil_iff.1 rfl
          rw [hfault] at hreports
          rw [List.append_nil]
          exact ⟨fun hmark => absurd hmark hopen, fun _ => ⟨rfl, hstop, hreports⟩, blockKind_iff⟩

/-- A block whose marks share no character, and a line that a close tag ends. -/
theorem comment_token_overlapping :
    let t : Text := "<?php /*/é**/#'?>".toList
    let block : Token := ⟨.comment, ⟨6, 14⟩⟩
    let line : Token := ⟨.comment, ⟨14, 16⟩⟩
    t.size < UInt32.size ∧ (t.lex false).tokens[1]? = some block ∧
      (t.lex false).tokens[2]? = some line ∧ Cursor.At t 14 "#'?>".toList ∧
      Cursor.At t 16 "?>".toList ∧
      (∃ body, BlockExtent body "/é**/#'?>".toList ∧
        block.span.text t = ['/', '*'] ++ body ++ ['*', '/'] ∧
        (t.lex false).reportsAt block.span = []) ∧
      LineExtent (line.span.text t) "?>".toList ∧
      ∃ k', (t.lex false).tokens[3]? = some k' ∧ k'.kind = .closeTag := by
  intro t block line
  have hsize : t.size < UInt32.size := by decide
  have hblock : (t.lex false).tokens[1]? = some block := by decide +kernel
  have hline : (t.lex false).tokens[2]? = some line := by decide +kernel
  have hbehind : Cursor.At t 14 "#'?>".toList := ⟨"<?php /*/é**/".toList, rfl, rfl⟩
  have hclose : Cursor.At t 16 "?>".toList := ⟨"<?php /*/é**/#'".toList, rfl, rfl⟩
  obtain ⟨-, -, hblocks⟩ := comment_token hsize hblock (Or.inl rfl) hbehind
  obtain ⟨-, hlines, -⟩ := comment_token hsize hline (Or.inl rfl) hclose
  obtain ⟨-, hextent, hnext⟩ := hlines (Or.inr ⟨['\''], by decide +kernel⟩)
  exact ⟨hsize, hblock, hline, hbehind, hclose,
    (hblocks "/é**/#'?>".toList (by decide +kernel)).1 ⟨"/é*".toList, "#'?>".toList, rfl⟩,
    hextent, hnext List.prefix_rfl⟩

end PhpImports
