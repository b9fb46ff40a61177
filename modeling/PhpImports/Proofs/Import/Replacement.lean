import PhpImports.Proofs.Import.Gist
import PhpImports.Proofs.Lexeme.Cover
import PhpImports.Proofs.Lexeme.Placed

/-!
# What is in layout, comments and strings does not matter

In a text without CR and without three less-than signs in a row, the characters of one blank token,
of one closed block comment or of one closed string may be exchanged for others of the same class.
Every other token keeps its kind and its characters, the diagnostics say the same, and the file
imports the same (`lex_splice`).
-/

namespace PhpImports

/-- The text with `s` in place of the characters of the span. -/
def Text.splice (t : Text) (span : Span) (s : Text) : Text :=
  t.slice 0 span.start.toNat ++ s ++ t.slice span.stop.toNat t.size

/-- A blank token, a closed block comment or a closed string: no diagnostic points at it. -/
def Lexing.Covered (l : Lexing) (source : Text) (k : Token) : Prop :=
  k.kind = .whitespace ∨
    (k.kind.isComment = true ∧ (k.span.text source).startsWith "/*".toList = true ∨
      k.kind = .stringLiteral) ∧ ∀ d ∈ l.diagnostics, d.span ≠ some k.span

/-- The texts that may stand in place of a token of this kind. -/
inductive Replacement (shortTags : Bool) : TokenKind → Text → Prop
  | blanks {s : Text} (any : s ≠ []) (blank : ∀ c ∈ s, c = ' ' ∨ c = '\t' ∨ c = '\n') :
      Replacement shortTags .whitespace s
  | block {kind : TokenKind} {b : Text} (comment : kind.isComment = true)
      (closed : ¬ "*/".toList <:+: b) :
      Replacement shortTags kind ("/*".toList ++ b ++ "*/".toList)
  | string {s : Text}
      (lone : (Text.lex shortTags ("<?php ".toList ++ s)).tokens.map (·.kind) =
        [.openTag, .stringLiteral])
      (closed : (Text.lex shortTags ("<?php ".toList ++ s)).diagnostics = []) :
      Replacement shortTags .stringLiteral s

variable {shortTags : Bool} {t s : Text}

theorem Text.splice_append {a u b : Text} (h : (a ++ (u ++ b)).size < UInt32.size) (s : Text) :
    Text.splice (a ++ (u ++ b)) (.ofNat a.size (a.size + u.size)) s = a ++ (s ++ b) := by
  have hfront : slice (a ++ (u ++ b)) 0 a.size = a := by
    have hslice := slice_append [] a (u ++ b)
    rwa [List.nil_append, size_nil, Nat.zero_add] at hslice
  have hback : slice (a ++ (u ++ b)) (a.size + u.size) (a ++ (u ++ b)).size = b := by
    have hslice := slice_append (a ++ u) b []
    rw [List.append_nil, List.append_assoc, size_append] at hslice
    rwa [size_append, size_append, ← Nat.add_assoc]
  have hstart : (Span.ofNat a.size (a.size + u.size)).start.toNat = a.size := by
    simp only [size_append, UInt32.size] at h
    exact Nat.mod_eq_of_lt (by omega)
  have hstop : (Span.ofNat a.size (a.size + u.size)).stop.toNat = a.size + u.size := by
    simp only [size_append, UInt32.size] at h
    exact Nat.mod_eq_of_lt (by omega)
  rw [splice, hstart, hstop, hfront, hback, List.append_assoc]

namespace Lexeme

/-- A string that is alone behind an open tag covers. -/
theorem covers_of_lone_string
    (hlone : (Text.lex shortTags ("<?php ".toList ++ s)).tokens.map (·.kind) =
      [.openTag, .stringLiteral])
    (hclosed : (Text.lex shortTags ("<?php ".toList ++ s)).diagnostics = []) :
    ∃ l, Covers l ∧ l.text = s ∧ TokenKind.stringLiteral.Alike l.kind := by
  have htag : StandsOutside shortTags { kind := .openTag, text := "<?php ".toList } s :=
    .longTag (w := "php".toList) rfl (Or.inr ⟨' ', rfl, rfl, by simp⟩)
  have hlexemes : Text.lexemes shortTags ("<?php ".toList ++ s) =
      { kind := .openTag, text := "<?php ".toList } :: readAll shortTags (.code false) s := by
    refine readAll_eq_iff.2 ⟨?_, .cons ?_ (inRow_readAll shortTags _ s)⟩
    · rw [texts_cons, texts, flatten_readAll]
    · rw [texts, flatten_readAll]
      exact htag
  rw [kinds_lex, hlexemes, List.map_cons, List.cons.injEq] at hlone
  have hrow := inRow_readAll shortTags (.code false) s
  have htexts := flatten_readAll shortTags (.code false) s
  have hfaults := @map_diagnostics_lex shortTags ("<?php ".toList ++ s) Cause
    Diagnostic.cause id fun _ _ => rfl
  rw [hclosed, hlexemes] at hfaults
  obtain ⟨l, hls, hkind⟩ := List.map_eq_singleton_iff.1 hlone.2
  rw [hls] at hrow htexts hfaults
  have hfault : l.fault = none := by
    cases hl : l.fault with
    | none => rfl
    | some cause =>
      rw [List.filterMap_cons_none rfl, List.filterMap_cons_some hl] at hfaults
      cases hfaults
  cases hrow with
  | cons hfirst _ =>
    have hcovers := Stands.covers hfirst (by rw [hkind]; decide) (Or.inr hfault)
      fun hcomment => by
        rw [hkind] at hcomment
        cases hcomment
    exact ⟨l, hcovers.1, by simpa using htexts, Or.inl hkind⟩

theorem exists_covers {kind : TokenKind} (h : Replacement shortTags kind s) :
    ∃ l, Covers l ∧ l.text = s ∧ kind.Alike l.kind := by
  cases h with
  | blanks hany hblank =>
    refine ⟨_, .blanks hany ?_, rfl, Or.inl rfl⟩
    intro c hc
    rcases hblank c hc with rfl | rfl | rfl <;> rfl
  | @block kind b hcomment hclosed =>
    exact ⟨_, .block hclosed, rfl, Or.inr ⟨hcomment, isComment_blockKind b⟩⟩
  | string hlone hclosed => exact covers_of_lone_string hlone hclosed

/-- The gists of lexemes do not tell those that cover apart. -/
theorem gists_cons_alike {l l' : Lexeme} (hl : Covers l) (halike : l.kind.Alike l'.kind)
    (B : List Lexeme) : gists (l' :: B) = gists (l :: B) := by
  have htrivia : l'.kind.isTrivia = l.kind.isTrivia :=
    halike.map_eq (f := TokenKind.isTrivia) rfl
  rw [gists, gists]
  cases hcase : l.kind.isTrivia with
  | true =>
    rw [List.filter_cons_of_neg (by simp [htrivia, hcase]),
      List.filter_cons_of_neg (by simp [hcase])]
  | false =>
    have hkinds : ∀ k ∈ coverKinds, k.isTrivia = false → k.isNamePart = false := by decide
    have hpart := hkinds _ hl.sound.1 hcase
    have hkind : l'.kind = l.kind := by
      rcases halike with h | ⟨h, -⟩
      · exact h
      · rcases TokenKind.isComment_iff.1 h with hk | hk <;> rw [hk] at hcase <;> cases hcase
    rw [List.filter_cons_of_pos (by simp [htrivia, hcase]),
      List.filter_cons_of_pos (by simp [hcase]), List.map_cons, List.map_cons, gist, gist, hkind,
      hpart]
    rfl

theorem gists_swap {l l' : Lexeme} (hl : Covers l) (halike : l.kind.Alike l'.kind)
    (A B : List Lexeme) :
    gists ((A ++ l' :: B).drop 1) = gists ((A ++ l :: B).drop 1) := by
  cases A with
  | nil => rfl
  | cons a A =>
    rw [List.cons_append, List.cons_append, List.drop_succ_cons, List.drop_succ_cons,
      List.drop_zero, List.drop_zero, gists_append, gists_append, gists_cons_alike hl halike]

theorem startsWith_of_opensLine {a : Text} (h : opensLine a = true) :
    a.startsWith "//".toList = true ∨ a.startsWith "#".toList = true := by
  rcases opensLine_cases h with ⟨r, rfl⟩ | ⟨r, rfl, -⟩
  · exact Or.inl (by simp)
  · exact Or.inr (by simp)

theorem covers_of_covered {m : Mode} {A B : List Lexeme} {l : Lexeme} {span : Span}
    (hrow : InRow shortTags m (A ++ l :: B)) (hspan : span.text t = l.text)
    (hfault : ∀ cause ∈ l.fault, cause.report span ∈ (t.lex shortTags).diagnostics)
    (hcovered : (t.lex shortTags).Covered t ⟨l.kind, span⟩) : Covers l := by
  have hcomment : ∀ k : TokenKind, k.isComment = true → k ∈ coverKinds := by
    intro k hk
    rcases TokenKind.isComment_iff.1 hk with rfl | rfl <;> decide
  rcases hcovered with hspace | ⟨hkind, hplaces⟩
  · have hkind : l.kind = .whitespace := hspace
    refine hrow.covers (by rw [hkind]; decide) (Or.inl hkind) ?_
    intro hblock
    rw [hkind] at hblock
    cases hblock
  · have hnone : l.fault = none := by
      cases hl : l.fault with
      | none => rfl
      | some cause => exact absurd rfl (hplaces _ (hfault cause hl))
    rcases hkind with ⟨hkind, hstart⟩ | hkind
    · exact hrow.covers (hcomment _ hkind) (Or.inr hnone) fun _ => hspan ▸ hstart
    · have hstring : l.kind = .stringLiteral := hkind
      refine hrow.covers (by rw [hstring]; decide) (Or.inr hnone) ?_
      intro hblock
      rw [hstring] at hblock
      cases hblock

/-- In place of a lexeme that covers stands another of its class, and nothing else is read anew. -/
theorem exists_lexemes_splice {i : Nat} {k : Token} (hcr : '\r' ∉ t)
    (hless : ¬ "<<<".toList <:+: t) (ht : t.size < UInt32.size)
    (hk : (t.lex shortTags).tokens[i]? = some k) (hcovered : (t.lex shortTags).Covered t k)
    (hs : Replacement shortTags k.kind s)
    (hline : k.kind = .whitespace → ∀ j c, i = j + 1 → (t.lex shortTags).tokens[j]? = some c →
      c.kind = .comment → ((c.span.text t).startsWith "//".toList = true ∨
        (c.span.text t).startsWith "#".toList = true) → s.head? = some '\n') :
    ∃ A l l' B, A.length = i ∧ t.lexemes shortTags = A ++ l :: B ∧
      (t.splice k.span s).lexemes shortTags = A ++ l' :: B ∧ Covers l ∧ Covers l' ∧ l'.text = s ∧
      k.kind = l.kind ∧ l.kind.Alike l'.kind := by
  obtain ⟨A, l, B, hsplit, rfl, rfl, hfault⟩ := token_eq hk
  have hrow := inRow_lexemes shortTags t
  rw [hsplit] at hrow
  have htexts := texts_lexemes shortTags t
  rw [hsplit] at htexts
  have hsize : (texts A ++ (l.text ++ texts B)).size < UInt32.size := by
    rwa [← texts_cons, ← texts_append, htexts]
  have hspan : (Span.ofNat (texts A).size ((texts A).size + Text.size l.text)).text t = l.text := by
    rw [← htexts, texts_append, texts_cons, Span.ofNat_text hsize]
  have hl : Covers l := covers_of_covered hrow hspan hfault hcovered
  obtain ⟨l', hl', rfl, halike⟩ := exists_covers hs
  have hrow' : InRow shortTags .html (A ++ l' :: B) := by
    refine hrow.swap hl hl' halike (by rwa [htexts]) (by rwa [htexts]) ?_
    intro a ha hcomment hopens hspace
    obtain ⟨A, rfl⟩ := List.getLast?_eq_some_iff.1 ha
    have hlabel : ((t.lex shortTags).labels t)[A.length]? = some (a.kind, a.text) := by
      rw [labels_lex ht, hsplit]
      simp
    rw [Lexing.labels, List.getElem?_map, Option.map_eq_some_iff] at hlabel
    obtain ⟨c, hc, hlabel⟩ := hlabel
    obtain ⟨hkind, htext⟩ := Prod.mk.inj hlabel
    refine hline ((whitespace_iff_of_alike halike).1 hspace) A.length c (by simp) hc ?_ ?_
    · rw [hkind, hcomment]
    · rw [htext]
      exact startsWith_of_opensLine hopens
  have hsplice : t.splice (.ofNat (texts A).size ((texts A).size + Text.size l.text)) l'.text =
      texts (A ++ l' :: B) := by
    rw [← htexts, texts_append, texts_cons, Text.splice_append hsize, texts_append, texts_cons]
  refine ⟨A, l, l', B, rfl, hsplit, ?_, hl, hl', rfl, rfl, halike⟩
  rw [hsplice]
  exact hrow'.readAll

end Lexeme

open Lexeme in
/-- One blank token, closed block comment or closed string exchanged for another of its class: every
other token keeps its kind and its characters, and so do the diagnostics and the imports. -/
theorem lex_splice {i : Nat} {k : Token} (hcr : '\r' ∉ t) (hless : ¬ "<<<".toList <:+: t)
    (ht : t.size < UInt32.size) (hk : (t.lex shortTags).tokens[i]? = some k)
    (hcovered : (t.lex shortTags).Covered t k) (hs : Replacement shortTags k.kind s)
    (hline : k.kind = .whitespace → ∀ j c, i = j + 1 → (t.lex shortTags).tokens[j]? = some c →
      c.kind = .comment → ((c.span.text t).startsWith "//".toList = true ∨
        (c.span.text t).startsWith "#".toList = true) → s.head? = some '\n')
    (hsize : (t.splice k.span s).size < UInt32.size) :
    let u := t.splice k.span s
    (∃ kind, k.kind.Alike kind ∧
      (u.lex shortTags).labels u = ((t.lex shortTags).labels t).set i (kind, s)) ∧
    (u.lex shortTags).diagnostics.map (fun d => (d.message, d.code)) =
      (t.lex shortTags).diagnostics.map (fun d => (d.message, d.code)) ∧
    (FileImports.ofTokens u (skipOpening (u.lex shortTags).tokens)).table =
      (FileImports.ofTokens t (skipOpening (t.lex shortTags).tokens)).table := by
  obtain ⟨A, l, l', B, rfl, hold, hnew, hl, hl', rfl, hkind, halike⟩ :=
    exists_lexemes_splice hcr hless ht hk hcovered hs hline
  refine ⟨⟨l'.kind, hkind ▸ halike, ?_⟩, ?_, ?_⟩
  · rw [labels_lex hsize, labels_lex ht, hold, hnew, List.map_append, List.map_append,
      List.set_append_right _ _ (by simp), List.length_map, Nat.sub_self, List.map_cons,
      List.map_cons, List.set_cons_zero]
  · have hmessage : ∀ (cause : Cause) (span : Span),
        ((cause.report span).message, (cause.report span).code) = (cause.message, cause.code?) :=
      fun _ _ => rfl
    rw [map_diagnostics_lex hmessage, map_diagnostics_lex hmessage, hold, hnew,
      List.filterMap_append, List.filterMap_append, List.filterMap_cons_none hl.sound.2.1,
      List.filterMap_cons_none hl'.sound.2.1]
  · have herase := @erase_ofTokens_lex shortTags _ hsize
    rw [hnew, gists_swap hl halike, ← hold, ← erase_ofTokens_lex ht] at herase
    have htable := congrArg FileImports.table herase
    exact htable

/-- What is in a comment may be code, as long as the comment ends where it did. -/
theorem lex_splice_block :
    let t : Text := "<?php use A/*b*/;".toList
    let k : Token := ⟨.comment, ⟨11, 16⟩⟩
    let u : Text := "<?php use A/*',B;use C;*/;".toList
    (t.lex false).tokens[4]? = some k ∧ t.splice k.span "/*',B;use C;*/".toList = u ∧
      (FileImports.ofTokens t (skipOpening (t.lex false).tokens)).table.entries =
        [(['A'], ['\\', 'A'])] ∧
      (FileImports.ofTokens u (skipOpening (u.lex false).tokens)).table =
        (FileImports.ofTokens t (skipOpening (t.lex false).tokens)).table := by
  intro t k u
  have hk : (t.lex false).tokens[4]? = some k := by decide +kernel
  have hsplice : t.splice k.span "/*',B;use C;*/".toList = u := by decide +kernel
  have hcovered : (t.lex false).Covered t k := by
    refine Or.inr ⟨Or.inl ⟨rfl, by decide +kernel⟩, ?_⟩
    have hnone : (t.lex false).diagnostics = [] := by decide +kernel
    rw [hnone]
    simp
  have hless : ¬ "<<<".toList <:+: t := fun h => absurd (h.sublist.count_le '<') (by decide)
  have hopen : ¬ "*/".toList <:+: "',B;use C;".toList := fun h =>
    absurd (h.subset (by decide : '*' ∈ "*/".toList)) (by decide)
  have hreplace : Replacement false k.kind "/*',B;use C;*/".toList := .block rfl hopen
  have hall := lex_splice (by decide) hless (by decide) hk hcovered hreplace
    (fun hkind => by cases hkind) (by decide +kernel)
  rw [hsplice] at hall
  exact ⟨hk, hsplice, by decide +kernel, hall.2.2⟩

end PhpImports
