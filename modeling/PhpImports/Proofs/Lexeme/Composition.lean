import PhpImports.Proofs.Lexeme.Append
import PhpImports.Proofs.Lexeme.Placed

/-!
# Lexing behind a close tag

A close tag at the end of a text leaves nothing for the text behind it to change: no token in front
of it looks past it, and reading starts afresh after it. So a text that ends with a close tag and a
text appended to it are lexed apart, the places in the second one shifted (`lex_append`). The tag
itself takes one line ending with it, so if it has none yet, the second text must not start with
one.
-/

namespace PhpImports

/-- The span `n` bytes further on. -/
def Span.shift (n : Nat) (s : Span) : Span :=
  ⟨s.start + n.toUInt32, s.stop + n.toUInt32⟩

def Token.shift (n : Nat) (t : Token) : Token :=
  { t with span := t.span.shift n }

def Diagnostic.shift (n : Nat) (d : Diagnostic) : Diagnostic :=
  { d with
    span := d.span.map (·.shift n)
    notes := d.notes.map fun m => { m with span := m.span.shift n } }

theorem Span.ofNat_shift (n start stop : Nat) :
    Span.ofNat (start + n) (stop + n) = (Span.ofNat start stop).shift n := by
  simp only [ofNat, shift, Nat.toUInt32, UInt32.ofNat_add]

namespace Lexeme

variable {shortTags : Bool} {m : Mode} {A B : List Lexeme} {l : Lexeme}

theorem place_append (start : Nat) (A B : List Lexeme) :
    place start (A ++ B) = place start A ++ place (start + (texts A).size) B := by
  induction A generalizing start with
  | nil => rfl
  | cons l A ih =>
    rw [List.cons_append, place, place, ih, texts_cons, Text.size_append, Nat.add_assoc]
    rfl

theorem place_shift (n start : Nat) (ls : List Lexeme) :
    place (start + n) ls = (place start ls).map fun p => { p with span := p.span.shift n } := by
  induction ls generalizing start with
  | nil => rfl
  | cons l ls ih =>
    rw [place, place, List.map_cons, Nat.add_right_comm, ih, Span.ofNat_shift]

/-- Lexemes in front of a close tag, the tag, and lexemes behind it are in a row. -/
theorem InRow.append {e : Text}
    (h : InRow shortTags m (A ++ [{ kind := .closeTag, text := '?' :: '>' :: e }]))
    (hseam : ∀ afterAccess,
      Stands afterAccess { kind := .closeTag, text := '?' :: '>' :: e } (texts B))
    (hB : InRow shortTags .html B) :
    InRow shortTags m (A ++ { kind := .closeTag, text := '?' :: '>' :: e } :: B) := by
  induction A generalizing m with
  | nil =>
    cases h with
    | cons hfirst _ =>
      cases m with
      | html => cases hfirst
      | code afterAccess => exact .cons (hseam afterAccess) hB
  | cons a A ih =>
    rw [List.cons_append] at h ⊢
    cases h with
    | cons hfirst hrest =>
      have hmark : '>' ∈ texts (A ++ [{ kind := .closeTag, text := '?' :: '>' :: e }]) := by
        rw [texts_append, texts_cons]
        exact List.mem_append_right _ (List.mem_append_left _ (by simp))
      have htexts : texts (A ++ { kind := .closeTag, text := '?' :: '>' :: e } :: B) =
          texts (A ++ [{ kind := .closeTag, text := '?' :: '>' :: e }]) ++ texts B := by
        simp only [texts_append, texts_cons, texts_nil, List.append_assoc, List.append_nil]
      refine .cons ?_ (ih hrest)
      rw [htexts]
      cases m with
      | html => exact StandsOutside.append _ hfirst hmark
      | code afterAccess => exact Stands.append _ hfirst hmark

/-- A close tag with the line ending it takes. -/
theorem exists_of_closeTag (h : m.Stands shortTags l []) (hkind : l.kind = .closeTag) :
    ∃ e, l = { kind := .closeTag, text := '?' :: '>' :: e } ∧
      (e = [] ∨ e = ['\n'] ∨ e = ['\r', '\n']) := by
  cases m with
  | html => cases h <;> cases hkind
  | code afterAccess =>
    have hkinds : ∀ kind ∈ tableKinds, kind ≠ .closeTag := by decide
    cases h with
    | @closeTag e _ hends =>
      refine ⟨e, rfl, ?_⟩
      rcases lineEnding_of_closeTagLength hends with ⟨hnil, -⟩ | hending
      · exact Or.inl hnil
      · exact Or.inr hending
    | @block body _ _ | @openBlock body _ =>
      rcases blockKind_cases body with hcomment | hcomment <;>
        rw [hcomment] at hkind <;> cases hkind
    | mark hlead => exact absurd hkind (hkinds _ (mem_tableKinds_of_mark hlead))
    | longMark hmem => exact absurd hkind (hkinds _ (mem_tableKinds_of_longMark hmem))
    | name _ _ => exact absurd hkind (hkinds _ (mem_tableKinds_of_name _ _))
    | heredoc hreads =>
      rw [heredoc?_kind hreads] at hkind
      cases hkind
    | _ => cases hkind

theorem stands_closeTag_behind {e b : Text} (he : e = [] ∨ e = ['\n'] ∨ e = ['\r', '\n'])
    (hseam : e ≠ [] ∨ ¬ ['\n'] <+: b ∧ ¬ ['\r', '\n'] <+: b) (afterAccess : Bool) :
    Stands afterAccess { kind := .closeTag, text := '?' :: '>' :: e } b := by
  refine .closeTag ?_
  rcases he with rfl | rfl | rfl
  · obtain ⟨hlf, hcrlf⟩ := hseam.resolve_left (fun hne => hne rfl)
    rw [List.nil_append, closeTagLength.eq_def]
    split
    · exact absurd (List.prefix_append ['\n'] _) hlf
    · exact absurd (List.prefix_append ['\r', '\n'] _) hcrlf
    · rfl
  · rfl
  · rfl

end Lexeme

variable {shortTags : Bool} {a b : Text} {k : Token}

open Lexeme

theorem getLast?_tokens_lex (h : (a.lex shortTags).tokens.getLast? = some k) :
    ∃ A l, a.lexemes shortTags = A ++ [l] ∧
      k = ⟨l.kind, .ofNat (texts A).size ((texts A).size + Text.size l.text)⟩ := by
  rw [List.getLast?_eq_getElem?] at h
  obtain ⟨A, l, B, hsplit, hlength, hk, -⟩ := token_eq h
  have hcount : (a.lex shortTags).tokens.length = (a.lexemes shortTags).length := by
    have hkinds := congrArg List.length (kinds_lex shortTags a)
    rwa [List.length_map, List.length_map] at hkinds
  have hB : B = [] := by
    rw [← List.length_eq_zero_iff]
    rw [hcount, hsplit] at hlength
    simp only [List.length_append, List.length_cons] at hlength
    omega
  exact ⟨A, l, by rw [hsplit, hB], hk⟩

theorem lexemes_append (hlast : (a.lex shortTags).tokens.getLast? = some k)
    (hkind : k.kind = .closeTag)
    (hseam : 2 < k.span.length ∨ ¬ ['\n'] <+: b ∧ ¬ ['\r', '\n'] <+: b) :
    (a ++ b).lexemes shortTags = a.lexemes shortTags ++ b.lexemes shortTags := by
  obtain ⟨A, l, hsplit, rfl⟩ := getLast?_tokens_lex hlast
  have hrow := inRow_lexemes shortTags a
  have htexts := texts_lexemes shortTags a
  rw [hsplit] at hrow htexts
  obtain ⟨m', hlastRow⟩ := hrow.of_append
  cases hlastRow with
  | cons hfirst _ =>
    obtain ⟨e, rfl, he⟩ := exists_of_closeTag hfirst hkind
    have hseam' : e ≠ [] ∨ ¬ ['\n'] <+: b ∧ ¬ ['\r', '\n'] <+: b := by
      refine hseam.imp_left ?_
      rintro hlong rfl
      simp only [Span.length, Span.ofNat, Nat.toUInt32, UInt32.toNat_ofNat'] at hlong
      have hsize : Text.size ['?', '>'] = 2 := rfl
      omega
    have hrow' := hrow.append (B := b.lexemes shortTags)
      (fun afterAccess => by
        rw [texts_lexemes]
        exact stands_closeTag_behind he hseam' afterAccess)
      (inRow_lexemes shortTags b)
    rw [hsplit, List.append_assoc, List.singleton_append]
    refine readAll_eq_iff.2 ⟨?_, hrow'⟩
    rw [← htexts]
    simp only [texts_append, texts_cons, texts_nil, texts_lexemes, List.append_assoc,
      List.append_nil]

/-- A text that ends with a close tag and a text behind it are lexed apart, unless the tag takes a
line ending from the second one. -/
theorem lex_append (hlast : (a.lex shortTags).tokens.getLast? = some k)
    (hkind : k.kind = .closeTag)
    (hseam : 2 < k.span.length ∨ ¬ ['\n'] <+: b ∧ ¬ ['\r', '\n'] <+: b) :
    ((a ++ b).lex shortTags).tokens =
        (a.lex shortTags).tokens ++ (b.lex shortTags).tokens.map (·.shift a.size) ∧
      ((a ++ b).lex shortTags).diagnostics =
        (a.lex shortTags).diagnostics ++ (b.lex shortTags).diagnostics.map (·.shift a.size) := by
  have hplace : place 0 ((a ++ b).lexemes shortTags) = place 0 (a.lexemes shortTags) ++
      (place 0 (b.lexemes shortTags)).map fun p => { p with span := p.span.shift a.size } := by
    rw [lexemes_append hlast hkind hseam, place_append, texts_lexemes, place_shift]
  constructor
  · simp only [Lexing.tokens, Text.lex, hplace, List.map_append, List.map_map]
    rfl
  · simp only [Text.lex, hplace, List.filterMap_append, List.filterMap_map, List.map_filterMap]
    congr 1
    apply List.filterMap_congr
    intro p _
    rw [Function.comp_apply, Placed.diagnostic?, Placed.diagnostic?]
    cases p.lexeme.fault <;> rfl

/-- The tag has its line ending, and what was remembered in front of it is forgotten. -/
theorem lex_append_reopened :
    let a : Text := "<?php $x-> ?>\n".toList
    let b : Text := "\né<?= use '".toList
    let k : Token := ⟨.closeTag, ⟨11, 14⟩⟩
    (a.lex false).tokens.getLast? = some k ∧ 2 < k.span.length ∧
      (b.lex false).tokens.map (·.kind) =
        [.inlineHtml, .openTagWithEcho, .whitespace, .kwUse, .whitespace, .stringLiteral] ∧
      ((a ++ b).lex false).tokens =
        (a.lex false).tokens ++ (b.lex false).tokens.map (·.shift 14) ∧
      ((a ++ b).lex false).diagnostics =
        (a.lex false).diagnostics ++ (b.lex false).diagnostics.map (·.shift 14) := by
  intro a b k
  have hlast : (a.lex false).tokens.getLast? = some k := by decide +kernel
  have hlong : 2 < k.span.length := by decide
  exact ⟨hlast, hlong, by decide +kernel, lex_append hlast rfl (Or.inl hlong)⟩

end PhpImports
