import PhpImports.Proofs.Cursor.Lexing
import PhpImports.Proofs.Lexeme.Placed

/-!
# Tokens as they are read

A token of a text is read in a mode, which the tokens before it decide, from the text that is left
at its start. What is read there is a lexeme that stands in front of the text left at its end, and
what is reported at its span is what that lexeme is at fault for (`exists_reads`). So what a token
is can be told from the text at its place alone.
-/

namespace PhpImports

namespace Lexing

/-- The mode in which the token at this index is read. -/
def modeAt (l : Lexing) (i : Nat) : Mode :=
  ((l.tokens.map (·.kind)).take i).foldl Mode.after .html

/-- What is reported at this span. -/
def reportsAt (l : Lexing) (s : Span) : List Diagnostic :=
  l.diagnostics.filter (·.span = some s)

/-- The token at an index of a text, as the lexeme that is read there and the text behind it. -/
structure Reads (shortTags : Bool) (t : Text) (i : Nat) (k : Token) (l : Lexeme) (x : Text) :
    Prop where
  kind : k.kind = l.kind
  text : k.span.text t = l.text
  starts : Cursor.At t k.span.start.toNat (l.text ++ x)
  stops : Cursor.At t k.span.stop.toNat x
  stands : ((t.lex shortTags).modeAt i).Stands shortTags l x
  next : (t.lex shortTags).modeAt (i + 1) = ((t.lex shortTags).modeAt i).after l.kind
  reports : (t.lex shortTags).reportsAt k.span = (l.fault.map (·.report k.span)).toList

end Lexing

namespace Cursor

variable {s r r' : Text} {i : Nat}

/-- What is left at an offset is one text. -/
theorem At.eq (h : At s i r) (h' : At s i r') : r = r' :=
  Option.some.inj (h.dropBytes?.symm.trans h'.dropBytes?)

theorem At.eq_nil_iff (h : At s i r) : r = [] ↔ i = s.size := by
  have hsize := h.size
  constructor
  · rintro rfl
    rw [hsize]
    rfl
  · intro hi
    by_contra hr
    have hpos := Text.size_pos hr
    omega

end Cursor

namespace Lexeme

/-- If no two lexemes are at one place, what is reported at a place is reported of its lexeme. -/
theorem filter_diagnostic? {ps : List Placed} (hapart : ps.Pairwise fun p q => p.span ≠ q.span)
    {p : Placed} (hp : p ∈ ps) : (ps.filterMap (·.diagnostic?)).filter (·.span = some p.span) =
      p.diagnostic?.toList := by
  have hother : ∀ qs : List Placed, (∀ q ∈ qs, q.span ≠ p.span) →
      (qs.filterMap (·.diagnostic?)).filter (·.span = some p.span) = [] := by
    intro qs hqs
    rw [List.filter_eq_nil_iff]
    intro d hd
    obtain ⟨q, hq, hd⟩ := List.mem_filterMap.1 hd
    obtain ⟨cause, -, rfl⟩ := Option.map_eq_some_iff.1 hd
    simpa [Cause.report] using hqs q hq
  obtain ⟨A, B, rfl⟩ := List.append_of_mem hp
  rw [List.pairwise_append, List.pairwise_cons] at hapart
  have hbefore := hother A fun q hq => hapart.2.2 q hq p List.mem_cons_self
  have hbehind := hother B fun q hq => (hapart.2.1.1 q hq).symm
  rw [List.filterMap_append, List.filter_append, hbefore, List.nil_append]
  cases hd : p.diagnostic? with
  | none => rw [List.filterMap_cons_none hd, hbehind]; rfl
  | some d =>
    obtain ⟨cause, -, rfl⟩ := Option.map_eq_some_iff.1 hd
    rw [List.filterMap_cons_some hd, List.filter_cons_of_pos (by simp [Cause.report]), hbehind]
    rfl

end Lexeme

open Lexeme

variable {shortTags : Bool} {t : Text} {i : Nat} {k : Token}

theorem modeAt_eq {A B : List Lexeme} (hsplit : t.lexemes shortTags = A ++ B) :
    (t.lex shortTags).modeAt A.length = A.foldl (fun m l => m.after l.kind) .html := by
  rw [Lexing.modeAt, kinds_lex, hsplit, List.map_append, List.take_left' (List.length_map _),
    List.foldl_map]

/-- No two lexemes of a text are at one place. -/
theorem apart_place (ht : t.size < UInt32.size) :
    (place 0 (t.lexemes shortTags)).Pairwise fun p q => p.span ≠ q.span := by
  have htiles := Cursor.tokens_tile shortTags t ht
  have hpairwise : (t.lex shortTags).tokens.Pairwise fun a b => a.span ≠ b.span := by
    refine htiles.ordered.imp_of_mem ?_
    intro a b ha _ hle hsame
    exact absurd (UInt32.lt_of_lt_of_le (htiles.nonempty a ha) (hsame ▸ hle)) (UInt32.lt_irrefl _)
  rwa [Cursor.tokens_eq_place, List.pairwise_map] at hpairwise

/-- Every token of a text is read. -/
theorem exists_reads (ht : t.size < UInt32.size) (hk : (t.lex shortTags).tokens[i]? = some k) :
    ∃ l x, Lexing.Reads shortTags t i k l x := by
  rw [Cursor.tokens_eq_place, List.getElem?_map] at hk
  obtain ⟨p, hp, rfl⟩ := Option.map_eq_some_iff.1 hk
  obtain ⟨A, B, hsplit, rfl, hspan⟩ := exists_of_getElem?_place hp
  rw [Nat.zero_add] at hspan
  have htext : t = texts A ++ (p.lexeme.text ++ texts B) := by
    rw [← texts_lexemes shortTags t, hsplit, texts_append, texts_cons]
  have hbehind : t.lexemes shortTags = (A ++ [p.lexeme]) ++ B := by simp [hsplit]
  have hnext := modeAt_eq hbehind
  rw [List.length_append, List.foldl_append, ← modeAt_eq hsplit] at hnext
  have hrow := inRow_lexemes shortTags t
  rw [hsplit] at hrow
  have hreports := filter_diagnostic? (apart_place ht) (List.mem_of_getElem? hp)
  obtain ⟨hstart, hstop⟩ : p.span.start.toNat = (texts A).size ∧
      p.span.stop.toNat = (texts A).size + p.lexeme.text.size := by
    rw [htext, Text.size_append, Text.size_append, UInt32.size] at ht
    rw [hspan]
    exact ⟨Nat.mod_eq_of_lt (by omega), Nat.mod_eq_of_lt (by omega)⟩
  have hat : Cursor.At t (texts A).size (p.lexeme.text ++ texts B) := ⟨texts A, htext, rfl⟩
  refine ⟨p.lexeme, texts B, rfl, ?_, ?_, ?_, ?_, hnext, hreports⟩
  · rw [htext] at ht ⊢
    exact (congrArg (Span.text · _) hspan).trans (Span.ofNat_text ht)
  · exact hstart ▸ hat
  · exact hstop ▸ hat.advance
  · rw [modeAt_eq hsplit]
    cases hrow.behind with
    | cons hfirst _ => exact hfirst

/-- In code, the text at the start of a token settles what is read there. -/
theorem Lexing.Reads.ofCode {l : Lexeme} {x : Text} (h : Lexing.Reads shortTags t i k l x)
    (hcode : (t.lex shortTags).modeAt i ≠ .html) {c : Char} {r : Text}
    (hstart : Cursor.At t k.span.start.toNat (c :: r)) :
    ∃ afterAccess, (t.lex shortTags).modeAt i = .code afterAccess ∧
      Lexeme.ofCode afterAccess c r = (l, x) := by
  have hstands := h.stands
  have hsplit := h.starts.eq hstart
  cases hmode : (t.lex shortTags).modeAt i with
  | html => exact absurd hmode hcode
  | code afterAccess =>
    rw [hmode] at hstands
    exact ⟨afterAccess, rfl, Lexeme.ofCode_iff.2 ⟨hsplit, hstands⟩⟩

/-- Where a token ends and the text goes on, the next token starts. -/
theorem exists_next (ht : t.size < UInt32.size) (hk : (t.lex shortTags).tokens[i]? = some k)
    (hends : k.span.stop.toNat ≠ t.size) :
    ∃ k', (t.lex shortTags).tokens[i + 1]? = some k' ∧ k'.span.start = k.span.stop := by
  have htiles := Cursor.tokens_tile shortTags t ht
  obtain ⟨hi, rfl⟩ := List.getElem?_eq_some_iff.1 hk
  by_cases hlast : i + 1 < (t.lex shortTags).tokens.length
  · exact ⟨_, List.getElem?_eq_getElem hlast,
      (List.isChain_iff_getElem.1 htiles.adjacent i hlast).symm⟩
  · have hstop := htiles.last
    rw [List.getLast?_eq_getElem?, List.getElem?_eq_getElem (by omega)] at hstop
    refine absurd ?_ hends
    rw [← hstop]
    simp only [Option.map_some, Option.getD_some]
    congr
    omega

end PhpImports
