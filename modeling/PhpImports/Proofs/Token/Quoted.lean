import PhpImports.Proofs.Lexeme.Enclosure
import PhpImports.Proofs.Token.Reading

/-!
# Quoted strings of a text

Where code goes on with a quote, the token is the quote with the one beginning of the text behind it
that closes the string. If nothing closes it, the token takes all of the text, and this is an error
(`string_token`). Read in place, a string and the blocks in it are skipped by two functions that
call each other. Both come to an end wherever they start, and find there whatever closes
(`FindsClosing`).
-/

namespace PhpImports

open Lexeme (Enclosure)
open Lexeme.Enclosure (IsQuote IsNested Closes)

namespace Cursor

/-- Read in place from `i` on, where `r` is left, it is found what closes the enclosure, or that
nothing does. -/
inductive FindsClosing (e : Enclosure) (s : Text) (i : Nat) (r : Text) : Result (Bool × Nat) → Prop
  | closed {m : Text} (begins : m <+: r) (closes : Closes e m) :
      FindsClosing e s i r (.ok (true, i + m.size))
  | unclosed (none : ∀ m, m <+: r → ¬ Closes e m) : FindsClosing e s i r (.ok (false, s.size))

variable {s r : Text} {i : Nat} {e : Enclosure}

theorem findsClosing_closedAt (h : At s i r) (hnested : IsNested [e]) :
    FindsClosing e s i r (.ok (closedAt i (Enclosure.close [e] r))) := by
  rcases Enclosure.close_cases hnested r with ⟨m, x, rfl, hcloses, hclose⟩ | ⟨hnone, hclose⟩
  · rw [hclose]
    exact .closed (List.prefix_append m x) hcloses
  · rw [hclose, closedAt, ← h.size]
    exact .unclosed hnone

theorem findsClosing_skipQuoted (h : At s i r) (hs : s.size < UInt32.size) {q : Char}
    (hquote : IsQuote q) : FindsClosing (.quote q) s i r (skipQuoted s q i) := by
  have hascii : q.toNat < 128 := by rcases hquote with rfl | rfl | rfl <;> decide
  rw [(skips r).quoted h hs q hascii]
  exact findsClosing_closedAt h (Enclosure.isNested_quote hquote)

/-- Some character is before a block, its brace. -/
theorem findsClosing_skipBlock (h : At s i r) (hs : s.size < UInt32.size) (hi : 0 < i) :
    FindsClosing .block s i r (skipBlock s 1 i) := by
  rw [(skips r).block h hs 1 (by decide) hi]
  exact findsClosing_closedAt h trivial

end Cursor

variable {shortTags : Bool} {t rest : Text} {i : Nat} {k : Token} {q : Char}

/-- In code, the token at a quote is the string that the quote opens. -/
theorem string_token (ht : t.size < UInt32.size) (hk : (t.lex shortTags).tokens[i]? = some k)
    (hcode : (t.lex shortTags).modeAt i ≠ .html) (hquote : IsQuote q)
    (hstart : Cursor.At t k.span.start.toNat (q :: rest)) :
    k.kind = .stringLiteral ∧
      (∀ m, m <+: rest → Closes (.quote q) m →
        (∀ m', m' <+: rest → Closes (.quote q) m' → m' = m) ∧
        k.span.text t = q :: m ∧ (t.lex shortTags).reportsAt k.span = []) ∧
      ((∀ m, m <+: rest → ¬ Closes (.quote q) m) →
        k.span.text t = q :: rest ∧ k.span.stop.toNat = t.size ∧
        (t.lex shortTags).reportsAt k.span = [Cause.unterminatedString.report k.span]) ∧
      ∀ j r, Cursor.At t j r →
        Cursor.FindsClosing (.quote q) t j r (Cursor.skipQuoted t q j) ∧
        (0 < j → Cursor.FindsClosing .block t j r (Cursor.skipBlock t 1 j)) := by
  have hnested := Enclosure.isNested_quote hquote
  obtain ⟨l, x, hreads⟩ := exists_reads ht hk
  obtain ⟨afterAccess, -, hread⟩ := hreads.ofCode hcode hstart
  rw [Lexeme.ofCode, Enclosure.isQuote_iff.1 hquote] at hread
  simp only [Lexeme.quoted, Lexeme.enclosed_eq] at hread
  obtain ⟨rfl, rfl⟩ := Prod.mk.inj hread
  refine ⟨hreads.kind, ?_, ?_, ?_⟩
  · intro m hm hcloses
    refine ⟨fun m' hm' hcloses' => hcloses'.unique hnested hcloses hm' hm, ?_⟩
    obtain ⟨x, rfl⟩ := hm
    have hclose := Enclosure.close_of_closes hnested hcloses x
    have htext := hreads.text
    have hreports := hreads.reports
    rw [hclose] at htext hreports
    exact ⟨htext, hreports⟩
  · intro hnone
    have hclose := (Enclosure.open_iff hquote).2 hnone
    have htext := hreads.text
    have hstops := hreads.stops
    have hreports := hreads.reports
    rw [hclose] at htext hstops hreports
    exact ⟨htext, hstops.eq_nil_iff.1 rfl, hreports⟩
  · intro j r hj
    exact ⟨Cursor.findsClosing_skipQuoted hj ht hquote, Cursor.findsClosing_skipBlock hj ht⟩

/-- An escaped quote, and a quote and a brace in a string in a block. -/
theorem string_token_nested :
    let m : Text := "é\\\"\x7b$b['\x7d\"']\x7d\"".toList
    let t : Text := "<?php \"".toList ++ m ++ ";".toList
    let k : Token := ⟨.stringLiteral, ⟨6, 22⟩⟩
    t.size < UInt32.size ∧ (t.lex false).tokens[1]? = some k ∧ (t.lex false).modeAt 1 ≠ .html ∧
      IsQuote '"' ∧ Cursor.At t k.span.start.toNat ('"' :: (m ++ ";".toList)) ∧
      Closes (.quote '"') m ∧
      (∀ m', m' <+: m ++ ";".toList → Closes (.quote '"') m' → m' = m) ∧
      k.span.text t = '"' :: m ∧ (t.lex false).reportsAt k.span = [] := by
  intro m t k
  have hsize : t.size < UInt32.size := by decide
  have hk : (t.lex false).tokens[1]? = some k := by decide +kernel
  have hcode : (t.lex false).modeAt 1 ≠ .html := by decide +kernel
  have hquote : IsQuote '"' := Or.inr (Or.inl rfl)
  have hstart : Cursor.At t k.span.start.toNat ('"' :: (m ++ ";".toList)) :=
    ⟨"<?php ".toList, rfl, rfl⟩
  have hcloses : Closes (.quote '"') m := (Enclosure.close_iff hquote).1 rfl
  obtain ⟨-, hclosed, -⟩ := string_token hsize hk hcode hquote hstart
  exact ⟨hsize, hk, hcode, hquote, hstart, hcloses, hclosed m (List.prefix_append m _) hcloses⟩

end PhpImports
