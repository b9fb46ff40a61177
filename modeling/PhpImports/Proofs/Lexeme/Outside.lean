import PhpImports.Proofs.Lexeme.Kind
import PhpImports.Proofs.Lexeme.LineEnding

/-!
# Lexemes outside code

Reading is outside code at the start of a text, behind text outside code and behind close tags, and
nowhere else (`InRow.isOutside_iff`). There, and only there, a lexeme is such text or an open tag,
so a row settles which kinds stand next to each other (`InRow.keepsMode`). Text outside code ends at
an open tag or at the end and has none in it (`TagFree`), and what follows it completes none, since
the mark of a tag is no part of a tag that has begun before it.
-/

namespace PhpImports

/-- Kinds of lexemes that are read outside code. -/
def TokenKind.isOutside (k : TokenKind) : Bool :=
  k = .inlineHtml || k = .openTag || k = .openTagWithEcho

/-- Kinds of lexemes behind which reading is outside code. -/
def TokenKind.leavesCode (k : TokenKind) : Bool :=
  k = .inlineHtml || k = .closeTag

/-- Where a lexeme of this kind may stand, from what its neighbours are, if it has any. -/
structure KeepsMode (before : Option TokenKind) (kind : TokenKind) (behind : Option TokenKind) :
    Prop where
  text : kind = .inlineHtml →
    (∀ b ∈ before, b = .closeTag) ∧ ∀ b ∈ behind, b = .openTag ∨ b = .openTagWithEcho
  tag : kind = .openTag ∨ kind = .openTagWithEcho → ∀ b ∈ before, b = .inlineHtml ∨ b = .closeTag
  code : kind ≠ .inlineHtml → kind ≠ .openTag → kind ≠ .openTagWithEcho →
    ∃ b ∈ before, b ≠ .closeTag ∧ b ≠ .inlineHtml

theorem TokenKind.isOutside_iff {k : TokenKind} :
    k.isOutside = true ↔ k = .inlineHtml ∨ k = .openTag ∨ k = .openTagWithEcho := by
  simp [isOutside, or_assoc]

theorem TokenKind.leavesCode_iff {k : TokenKind} :
    k.leavesCode = true ↔ k = .inlineHtml ∨ k = .closeTag := by
  simp [leavesCode]

namespace Lexeme

/-- No open tag starts in `t`, which has `x` behind it. -/
def TagFree (shortTags : Bool) (t x : Text) : Prop :=
  ∀ a c b, t = a ++ c :: b → openTag? shortTags (c :: (b ++ x)) = none

variable {shortTags afterAccess : Bool} {m : Mode} {l : Lexeme} {t html x : Text}

namespace StandsOutside

theorem isOutside (h : StandsOutside shortTags l x) : l.kind.isOutside = true := by
  cases h <;> rfl

theorem tagFree (h : StandsOutside shortTags l x) (hkind : l.kind = .inlineHtml) :
    TagFree shortTags l.text x := by
  cases h with
  | text _ hends =>
    intro a c b hsplit
    simpa using (Text.breakAt_eq_iff.1 hends).2 a c b hsplit
  | _ => cases hkind

/-- Text outside code goes on up to an open tag or the end. -/
theorem behind (h : StandsOutside shortTags l x) (hkind : l.kind = .inlineHtml) :
    x = [] ∨ (openTag? shortTags x).isSome = true := by
  cases h with
  | text _ hends => exact (Text.breakAt_eq_iff.1 hends).1
  | _ => cases hkind

/-- Where a tag opens, no text outside code starts. -/
theorem tag (h : StandsOutside shortTags l x)
    (htag : (openTag? shortTags (l.text ++ x)).isSome = true) :
    l.kind = .openTag ∨ l.kind = .openTagWithEcho := by
  refine (TokenKind.isOutside_iff.1 h.isOutside).resolve_left fun hkind => ?_
  obtain ⟨c, r, htext⟩ := List.exists_cons_of_ne_nil h.ofHtml.1
  have hnone := h.tagFree hkind [] c r htext
  rw [htext, List.cons_append, hnone] at htag
  cases htag

end StandsOutside

theorem Stands.not_isOutside (h : Stands afterAccess l x) : l.kind.isOutside = false := by
  have hkinds : ∀ kind ∈ tableKinds, kind.isOutside = false := by decide
  cases h with
  | @block body _ _ | @openBlock body _ =>
    rcases blockKind_cases body with hkind | hkind
    · simp only [hkind]
      rfl
    · simp only [hkind]
      rfl
  | mark hlead => exact hkinds _ (mem_tableKinds_of_mark hlead)
  | longMark hmem => exact hkinds _ (mem_tableKinds_of_longMark hmem)
  | name _ _ => exact hkinds _ (mem_tableKinds_of_name _ _)
  | heredoc hreads =>
    have hkind : l.kind = .heredoc := heredoc?_kind hreads
    rw [hkind]
    rfl
  | _ => rfl

end Lexeme

open Lexeme

variable {shortTags : Bool} {m : Mode} {l : Lexeme} {x : Text}

theorem Mode.Stands.isOutside_iff (h : m.Stands shortTags l x) :
    l.kind.isOutside = true ↔ m = .html := by
  cases m with
  | html => exact iff_of_true (StandsOutside.isOutside h) rfl
  | code afterAccess =>
    have hkind := Lexeme.Stands.not_isOutside h
    exact iff_of_false (by simp [hkind]) (by simp)

/-- Which lexemes leave code or stay outside it. -/
theorem Mode.Stands.after_eq_html_iff (h : m.Stands shortTags l x) :
    m.after l.kind = .html ↔ l.kind.leavesCode = true := by
  rw [Mode.after, TokenKind.leavesCode_iff]
  by_cases hleaves : l.kind = .inlineHtml ∨ l.kind = .closeTag
  · rw [if_pos hleaves]
    exact iff_of_true rfl hleaves
  · rw [if_neg hleaves]
    refine iff_of_false ?_ hleaves
    split
    · next htrivia =>
      -- trivia stand in code, so the mode they keep is not this one
      rw [← h.isOutside_iff, TokenKind.isOutside_iff]
      rintro (hkind | hkind | hkind) <;> rw [hkind] at htrivia <;> cases htrivia
    · simp

namespace Lexeme

variable {A B : List Lexeme} {t html : Text}

/-- Which lexemes of a row stand outside code: the first one and those behind what leaves it. -/
theorem InRow.isOutside_iff (h : InRow shortTags .html (A ++ l :: B)) :
    l.kind.isOutside = true ↔ ∀ j ∈ A.getLast?, j.kind.leavesCode = true := by
  have hmode : A.foldl (fun m l => m.after l.kind) Mode.html = .html ↔
      ∀ j ∈ A.getLast?, j.kind.leavesCode = true := by
    obtain rfl | ⟨A, j, rfl⟩ := A.eq_nil_or_concat'
    · simp
    · rw [List.append_assoc] at h
      cases h.behind with
      | cons hfirst _ =>
        rw [List.foldl_concat, List.getLast?_concat, hfirst.after_eq_html_iff]
        simp
  cases h.behind with
  | cons hfirst _ => rw [hfirst.isOutside_iff, hmode]

/-- Behind text outside code stands an open tag. -/
theorem InRow.tag_behind {j : Lexeme} (h : InRow shortTags m (j :: l :: B))
    (hj : j.kind = .inlineHtml) : l.kind = .openTag ∨ l.kind = .openTagWithEcho := by
  cases h with
  | cons hfirst hrest =>
    obtain rfl : m = .html := hfirst.isOutside_iff.1 (by rw [hj]; rfl)
    rw [hj] at hrest
    cases hrest with
    | cons hsecond _ =>
      have hends := StandsOutside.behind hfirst hj
      rw [texts_cons] at hends
      exact StandsOutside.tag hsecond (hends.resolve_left (by simp [hsecond.ne_nil]))

/-- In a row that starts outside code, every lexeme is where its kind may stand. -/
theorem InRow.keepsMode (h : InRow shortTags .html (A ++ l :: B)) :
    KeepsMode (A.getLast?.map (·.kind)) l.kind (B.head?.map (·.kind)) := by
  have houtside := h.isOutside_iff
  rw [TokenKind.isOutside_iff] at houtside
  have hbefore : (l.kind = .inlineHtml ∨ l.kind = .openTag ∨ l.kind = .openTagWithEcho) →
      ∀ b ∈ A.getLast?.map (·.kind), b = .inlineHtml ∨ b = .closeTag := by
    intro hkind b hb
    obtain ⟨j, hj, rfl⟩ := Option.map_eq_some_iff.1 hb
    exact TokenKind.leavesCode_iff.1 (houtside.1 hkind j hj)
  refine ⟨fun hkind => ⟨?_, ?_⟩, fun hkind => hbefore (Or.inr hkind), ?_⟩
  · intro b hb
    refine (hbefore (Or.inl hkind) b hb).resolve_left ?_
    -- behind text outside code, this would be a tag
    rintro rfl
    obtain ⟨j, hj, hjkind⟩ := Option.map_eq_some_iff.1 hb
    obtain ⟨A, rfl⟩ := List.getLast?_eq_some_iff.1 hj
    rw [List.append_assoc] at h
    have htag := h.behind.tag_behind hjkind
    simp [hkind] at htag
  · intro b hb
    obtain ⟨j, hj, rfl⟩ := Option.map_eq_some_iff.1 hb
    obtain ⟨B, rfl⟩ := List.head?_eq_some_iff.1 hj
    exact h.behind.tag_behind hkind
  · intro htext htag hecho
    have hleft : ¬ ∀ j ∈ A.getLast?, j.kind.leavesCode = true :=
      fun hleaves => (houtside.2 hleaves).elim htext fun hkind => hkind.elim htag hecho
    simp only [not_forall] at hleft
    obtain ⟨j, hj, hjkind⟩ := hleft
    rw [TokenKind.leavesCode_iff, not_or] at hjkind
    exact ⟨j.kind, Option.mem_map_of_mem _ hj, hjkind.2, hjkind.1⟩

/-- A text that starts with an open tag has it as its first lexeme. -/
theorem exists_lexemes_of_openTag (htag : (openTag? shortTags t).isSome = true) :
    ∃ l ls, t.lexemes shortTags = l :: ls ∧ (l.kind = .openTag ∨ l.kind = .openTagWithEcho) := by
  have hrow := inRow_lexemes shortTags t
  have htexts := texts_lexemes shortTags t
  cases hlexemes : t.lexemes shortTags with
  | nil =>
    rw [hlexemes] at htexts
    rw [← htexts] at htag
    cases htag
  | cons l ls =>
    rw [hlexemes] at hrow htexts
    cases hrow with
    | cons hfirst _ =>
      rw [← htexts, texts_cons] at htag
      exact ⟨l, ls, rfl, StandsOutside.tag hfirst htag⟩

/-- A mark that starts in front of `x` is all there, unless `x` completes it. -/
theorem exists_of_startsWith_mark {c : Char} {b : Text} (hx : x.head? ≠ some '?')
    (hmark : Text.startsWith (c :: (b ++ x)) "<?".toList = true) :
    c = '<' ∧ ∃ b', b = '?' :: b' := by
  obtain ⟨r, hr⟩ := Text.startsWith_iff.1 hmark
  rw [show "<?".toList ++ r = '<' :: '?' :: r from rfl] at hr
  obtain ⟨hc, hbehind⟩ := List.cons.inj hr
  cases b with
  | nil =>
    rw [List.nil_append] at hbehind
    exact absurd (by rw [hbehind]; rfl) hx
  | cons d b =>
    obtain ⟨rfl, -⟩ := List.cons.inj hbehind
    exact ⟨hc, b, rfl⟩

/-- Text free of tags does not make one with the mark of a tag behind it. -/
theorem TagFree.append_mark (h : TagFree shortTags html []) (t : Text) :
    TagFree shortTags html ('<' :: t) := by
  intro a c b hsplit
  have hnone := h a c b hsplit
  rw [List.append_nil] at hnone
  rw [← Option.not_isSome_iff_eq_none, isSome_openTag?, Bool.and_eq_true] at hnone ⊢
  rintro ⟨hmark, hopens⟩
  obtain ⟨rfl, b, rfl⟩ := exists_of_startsWith_mark (by simp) hmark
  refine hnone ⟨Text.startsWith_iff.2 ⟨b, rfl⟩, ?_⟩
  simp only [List.cons_append, List.drop_succ_cons, List.drop_zero, Bool.or_eq_true,
    decide_eq_true_iff] at hopens ⊢
  refine hopens.imp_left (Or.imp ?_ (opensLongTag_append_mark b t))
  intro hecho
  cases b with
  | nil => cases hecho
  | cons e b => exact hecho

/-- Text free of tags in front of an open tag is one lexeme more. -/
theorem lexemes_append_of_tagFree (hfree : TagFree shortTags html [])
    (htag : (openTag? shortTags t).isSome = true) (hne : html ≠ []) :
    (html ++ t).lexemes shortTags =
      { kind := .inlineHtml, text := html } :: t.lexemes shortTags := by
  refine readAll_eq_iff.2 ⟨by rw [texts_cons, texts_lexemes], ?_⟩
  refine .cons (.text hne ?_) (inRow_lexemes shortTags t)
  rw [texts_lexemes]
  refine Text.breakAt_eq (Or.inr htag) ?_
  intro a c b hsplit
  obtain ⟨r, rfl⟩ := exists_of_isSome_openTag? htag
  rw [hfree.append_mark r a c b hsplit]
  rfl

/-- Unifying line endings opens no tag. -/
theorem TagFree.unify (h : TagFree shortTags html []) :
    TagFree shortTags html.unifyLineEndings [] := by
  intro a c b hsplit
  obtain ⟨r, ⟨a', rfl⟩, hr⟩ := Text.exists_suffix_of_unifyLineEndings (r := c :: b) (s := html)
    ⟨a, hsplit.symm⟩
  rw [List.append_nil, ← Option.not_isSome_iff_eq_none, hr, isSome_openTag?_unify]
  cases r with
  | nil => cases hr
  | cons d r =>
    have hnone := h a' d r rfl
    rw [List.append_nil] at hnone
    rw [hnone]
    exact Bool.false_ne_true

end Lexeme
end PhpImports
