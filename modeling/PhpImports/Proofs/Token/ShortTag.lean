import PhpImports.Proofs.Import.LineEnding
import PhpImports.Proofs.Token.Outside

/-!
# What short tags change

With short tags on, the mark of a tag is enough to open one, so text outside code has no mark in it.
As long as the text that is read with short tags off has none either, both readings go through the
same lexemes in the same modes. They part at the first mark that only one of them takes for a tag,
which is a bare one or that of a long tag with no blank behind its word
(`lex_shortTags_eq_iff`).
-/

namespace PhpImports

open Lexeme

namespace Lexeme

variable {l : Lexeme} {m : Mode} {t x : Text}

/-- With short tags on, the mark of a tag is a tag. -/
theorem isSome_openTag?_on (s : Text) :
    (openTag? true s).isSome = s.startsWith "<?".toList := by
  rw [isSome_openTag?, Bool.or_true, Bool.and_true]

/-- Every tag opens with short tags on. -/
theorem isSome_openTag?_on_of_off {s : Text} (h : (openTag? false s).isSome = true) :
    (openTag? true s).isSome = true := by
  rw [isSome_openTag?, Bool.and_eq_true] at h
  rw [isSome_openTag?_on, h.1]

/-- With short tags on, to be free of tags is to be free of marks, unless what is behind the text
completes one. -/
theorem tagFree_on_iff (hx : x.head? ≠ some '?') :
    TagFree true t x ↔ ¬ ['<', '?'] <:+: t := by
  constructor
  · rintro hfree ⟨a, b, rfl⟩
    have hnone := hfree a '<' ('?' :: b) (by simp)
    rw [← Option.not_isSome_iff_eq_none, isSome_openTag?_on] at hnone
    exact hnone (Text.startsWith_iff.2 ⟨b ++ x, rfl⟩)
  · rintro hmark a c b rfl
    rw [← Option.not_isSome_iff_eq_none, isSome_openTag?_on]
    intro hopens
    obtain ⟨rfl, b, rfl⟩ := exists_of_startsWith_mark hx hopens
    exact hmark ⟨a, b, by simp⟩

/-- Where text outside code ends, no mark is completed. -/
theorem StandsOutside.head?_ne {shortTags : Bool} (h : StandsOutside shortTags l x)
    (hkind : l.kind = .inlineHtml) : x.head? ≠ some '?' := by
  rcases h.behind hkind with rfl | htag
  · simp
  · obtain ⟨r, rfl⟩ := exists_of_isSome_openTag? htag
    simp

/-- What is read with short tags off is read with short tags on, unless it is text with a mark. -/
theorem StandsOutside.on (h : StandsOutside false l x)
    (hmark : l.kind = .inlineHtml → ¬ ['<', '?'] <:+: l.text) : StandsOutside true l x := by
  have hends := h.head?_ne
  cases h with
  | echoTag => exact .echoTag
  | lastTag hword => exact .lastTag hword
  | longTag hword hblank => exact .longTag hword hblank
  | shortTag hon _ _ => cases hon
  | text hne hbreak =>
    have hbehind := (Text.breakAt_eq_iff.1 hbreak).1
    have hfree := (tagFree_on_iff (hends rfl)).2 (hmark rfl)
    refine .text hne (Text.breakAt_eq (hbehind.imp_right isSome_openTag?_on_of_off) ?_)
    intro a c b hsplit
    rw [hfree a c b hsplit]
    rfl

/-- Both readings stay in step while no text outside code has a mark in it. -/
theorem InRow.on {ls : List Lexeme} (h : InRow false m ls)
    (hmarks : ∀ l ∈ ls, l.kind = .inlineHtml → ¬ ['<', '?'] <:+: l.text) : InRow true m ls := by
  induction h with
  | nil => exact .nil
  | @cons m l ls hfirst _ ih =>
    refine .cons ?_ (ih fun l hl => hmarks l (List.mem_cons_of_mem _ hl))
    cases m with
    | html => exact StandsOutside.on hfirst (hmarks l List.mem_cons_self)
    | code afterAccess => exact hfirst

/-- With short tags on, no text outside code has a mark in it. -/
theorem InRow.not_mark {ls : List Lexeme} (h : InRow true m ls) (hl : l ∈ ls)
    (hkind : l.kind = .inlineHtml) : ¬ ['<', '?'] <:+: l.text := by
  obtain ⟨m', x, hstands⟩ := h.exists_stands hl
  obtain rfl : m' = .html := hstands.isOutside_iff.1 (by rw [hkind]; rfl)
  exact (tagFree_on_iff (StandsOutside.head?_ne hstands hkind)).1
    (StandsOutside.tagFree hstands hkind)

end Lexeme

variable {t : Text}

theorem lexemes_on_eq
    (hmarks : ∀ l ∈ t.lexemes false, l.kind = .inlineHtml → ¬ ['<', '?'] <:+: l.text) :
    t.lexemes true = t.lexemes false :=
  readAll_eq_iff.2 ⟨texts_lexemes false t, (inRow_lexemes false t).on hmarks⟩

/-- Short tags change what is read of a text exactly if, without them, some text outside code has
the mark of a tag in it. -/
theorem lex_shortTags_eq_iff (ht : t.size < UInt32.size) :
    ((t.lex true).tokens = (t.lex false).tokens ∧
      (t.lex true).diagnostics = (t.lex false).diagnostics) ↔
    ∀ k ∈ (t.lex false).tokens, k.kind = .inlineHtml → ¬ ['<', '?'] <:+: k.span.text t := by
  constructor
  · rintro ⟨htokens, -⟩ k hk hkind
    rw [← htokens] at hk
    have hlabel : (k.kind, k.span.text t) ∈ (t.lex true).labels t := List.mem_map_of_mem hk
    rw [labels_lex ht] at hlabel
    obtain ⟨l, hl, heq⟩ := List.mem_map.1 hlabel
    obtain ⟨hlkind, hltext⟩ := Prod.mk.inj heq
    rw [← hltext]
    exact (inRow_lexemes true t).not_mark hl (hlkind.trans hkind)
  · intro hmarks
    have hlexemes : t.lexemes true = t.lexemes false := by
      refine lexemes_on_eq fun l hl hkind => ?_
      have hlabel : (l.kind, l.text) ∈ (t.lex false).labels t := by
        rw [labels_lex ht]
        exact List.mem_map_of_mem (f := fun l : Lexeme => (l.kind, l.text)) hl
      obtain ⟨k, hk, heq⟩ := List.mem_map.1 hlabel
      obtain ⟨hkkind, hktext⟩ := Prod.mk.inj heq
      rw [← hktext]
      exact hmarks k hk (hkkind.trans hkind)
    rw [Text.lex, Text.lex, hlexemes]
    exact ⟨rfl, rfl⟩

/-- A word that goes on behind the mark of a long tag, and text that breaks off at a mark. -/
theorem lex_shortTags_eq_iff_long_word :
    let t : Text := "<?php ?>é<?phpx".toList
    let t' : Text := "<<?PHP ?>é<<?=".toList
    t.size < UInt32.size ∧ t'.size < UInt32.size ∧
      (⟨.inlineHtml, ⟨8, 16⟩⟩ : Token) ∈ (t.lex false).tokens ∧
      ['<', '?'] <:+: Span.text ⟨8, 16⟩ t ∧
      ¬ ((t.lex true).tokens = (t.lex false).tokens ∧
        (t.lex true).diagnostics = (t.lex false).diagnostics) ∧
      (t'.lex true).tokens = (t'.lex false).tokens ∧
      (t'.lex true).diagnostics = (t'.lex false).diagnostics := by
  intro t t'
  have hsize : t.size < UInt32.size := by decide
  have hsize' : t'.size < UInt32.size := by decide
  have htext : (⟨.inlineHtml, ⟨8, 16⟩⟩ : Token) ∈ (t.lex false).tokens := by decide +kernel
  have hmark : ['<', '?'] <:+: Span.text ⟨8, 16⟩ t := ⟨['é'], "phpx".toList, by decide +kernel⟩
  have hmarks : ∀ k ∈ (t'.lex false).tokens, k.kind = .inlineHtml →
      ¬ ['<', '?'] <:+: k.span.text t' := by decide +kernel
  exact ⟨hsize, hsize', htext, hmark,
    fun hsame => (lex_shortTags_eq_iff hsize).1 hsame _ htext rfl hmark,
    (lex_shortTags_eq_iff hsize').2 hmarks⟩

end PhpImports
