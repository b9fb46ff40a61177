import PhpImports.Proofs.Lexeme.HeredocGrammar
import PhpImports.Proofs.Token.Reading

/-!
# Heredocs of a text

Where code goes on with three less-than signs, the token is a heredoc exactly if the text goes on as
an opener does. It ends with the label of the first line of the body that starts with it; if no line
does, it takes all of the text, and this is an error (`heredoc_token`). What only resembles an
opener is left as it is behind the first sign.
-/

namespace PhpImports

open Lexeme (HeredocOpener HoldsLabel ClosingLine)

namespace Lexeme

variable {afterAccess : Bool} {s body : Text} {o : HeredocOpener}

/-- Three less-than signs and an opener are read with the body. -/
theorem ofCode_heredoc (h : HeredocOpener.read? s = some (o, body)) :
    ofCode afterAccess '<' ("<<".toList ++ s) =
      enclosed .heredoc (.unterminatedHeredoc o.label) o.text (heredocBody o.label body) := by
  have hstart : Text.startsWith ("<<".toList ++ s) "<<".toList = true :=
    Text.startsWith_iff.2 ⟨s, rfl⟩
  have hrest : ("<<".toList ++ s).drop 2 = s := rfl
  have hheredoc : heredoc? s =
      some (enclosed .heredoc (.unterminatedHeredoc o.label) o.text
        (heredocBody o.label body)) := by
    rw [heredoc?, h]
    rfl
  rw [ofCode, show Lead.of '<' = .less from rfl]
  simp only [hstart, if_true, hrest, hheredoc]

/-- Without an opener, the first less-than sign is read alone. -/
theorem ofCode_less (h : HeredocOpener.read? s = none) :
    ofCode afterAccess '<' ("<<".toList ++ s) =
      ({ kind := .punct, text := ['<'] }, "<<".toList ++ s) := by
  have hheredoc : heredoc? s = none := by
    rw [heredoc?, h]
    rfl
  have hrest : ("<<".toList ++ s).drop 2 = s := rfl
  rw [ofCode, show Lead.of '<' = .less from rfl]
  simp only [hrest, hheredoc, ite_self]
  rfl

end Lexeme

variable {shortTags : Bool} {t s : Text} {i : Nat} {k : Token}

/-- In code, the token at three less-than signs is the heredoc that they open, or the first of
them. -/
theorem heredoc_token (ht : t.size < UInt32.size) (hk : (t.lex shortTags).tokens[i]? = some k)
    (hcode : (t.lex shortTags).modeAt i ≠ .html)
    (hstart : Cursor.At t k.span.start.toNat ("<<<".toList ++ s)) :
    (∀ o body, HeredocOpener.IsOpener o → o.text ++ body = "<<<".toList ++ s →
      k.kind = .heredoc ∧
      (HoldsLabel o.label body → ∃ above indent x, ClosingLine o.label body above indent x ∧
        (∀ above' indent' x', ClosingLine o.label body above' indent' x' →
          above.length ≤ above'.length) ∧
        k.span.text t = o.text ++ (above ++ (indent ++ o.label)) ∧
        (t.lex shortTags).reportsAt k.span = []) ∧
      (¬ HoldsLabel o.label body →
        k.span.text t = o.text ++ body ∧ k.span.stop.toNat = t.size ∧
        (t.lex shortTags).reportsAt k.span =
          [(Cause.unterminatedHeredoc o.label).report k.span])) ∧
    ((∀ o body, HeredocOpener.IsOpener o → o.text ++ body ≠ "<<<".toList ++ s) →
      k.kind = .punct ∧ k.span.text t = ['<'] ∧
      Cursor.At t k.span.stop.toNat ("<<".toList ++ s) ∧
      (t.lex shortTags).reportsAt k.span = [] ∧
      (t.lex shortTags).modeAt (i + 1) = .code false ∧
      Cursor.heredoc? t k.span.start.toNat = .ok none) := by
  obtain ⟨l, x, hreads⟩ := exists_reads ht hk
  obtain ⟨afterAccess, hmode, hread⟩ := hreads.ofCode hcode hstart
  constructor
  · intro o body hopener happend
    have hopened := HeredocOpener.read?_iff.2 ⟨hopener, happend⟩
    have henclosed := hread.symm.trans (Lexeme.ofCode_heredoc hopened)
    rw [Lexeme.enclosed_eq] at henclosed
    obtain ⟨rfl, rfl⟩ := Prod.mk.inj henclosed
    have htext := hreads.text
    have hstops := hreads.stops
    have hreports := hreads.reports
    refine ⟨hreads.kind, ?_, ?_⟩
    · intro hholds
      obtain ⟨above, indent, x, hcloses, hfirst, hbody⟩ := hholds.heredocBody hopener.isLabel
      rw [hbody] at htext hreports
      exact ⟨above, indent, x, hcloses, hfirst, htext, hreports⟩
    · intro hnot
      have hnone := (Lexeme.heredocBody_eq_none_iff hopener.isLabel).2 hnot
      have hbody := Lexeme.heredocBody_append o.label body
      rw [hnone, Option.getD_none, List.append_nil] at hbody
      rw [hnone] at hstops hreports
      rw [hbody] at htext
      exact ⟨htext, hstops.eq_nil_iff.1 rfl, hreports⟩
  · intro hnot
    have hnone : HeredocOpener.read? s = none := by
      rw [Option.eq_none_iff_forall_ne_some]
      rintro ⟨o, body⟩ hopened
      obtain ⟨hopener, happend⟩ := HeredocOpener.read?_iff.1 hopened
      exact hnot o body hopener happend
    have hplace := hstart.heredoc?
    rw [Lexeme.heredoc?, hnone] at hplace
    obtain ⟨rfl, rfl⟩ := Prod.mk.inj (hread.symm.trans (Lexeme.ofCode_less hnone))
    have hnext := hreads.next
    rw [hmode] at hnext
    exact ⟨hreads.kind, hreads.text, hreads.stops, hreads.reports, hnext, hplace⟩

/-- A label in quotes, a line that goes on behind it, an empty one, and one that is indented. -/
theorem heredoc_token_indented :
    let o : HeredocOpener := ⟨" ".toList, some '"', "é".toList, "\r\n".toList⟩
    let body : Text := "é1\n\n \té;\né".toList
    let t : Text := "<?php ".toList ++ o.text ++ body
    let k : Token := ⟨.heredoc, ⟨6, 25⟩⟩
    t.size < UInt32.size ∧ (t.lex false).tokens[1]? = some k ∧ (t.lex false).modeAt 1 ≠ .html ∧
      o.IsOpener ∧ HoldsLabel o.label body ∧
      ∃ above indent x, ClosingLine o.label body above indent x ∧
        (∀ above' indent' x', ClosingLine o.label body above' indent' x' →
          above.length ≤ above'.length) ∧
        k.span.text t = o.text ++ (above ++ (indent ++ o.label)) ∧
        (t.lex false).reportsAt k.span = [] := by
  intro o body t k
  have hsize : t.size < UInt32.size := by decide
  have hk : (t.lex false).tokens[1]? = some k := by decide +kernel
  have hcode : (t.lex false).modeAt 1 ≠ .html := by decide +kernel
  have hopener : o.IsOpener := by
    refine ⟨by decide, ?_, by decide, by decide, Or.inr rfl⟩
    rintro q ⟨⟩
    exact Or.inr rfl
  have hholds : HoldsLabel o.label body :=
    ⟨"é1\n\n".toList, " \t".toList, ";\né".toList, ⟨rfl, Or.inr rfl, by decide, rfl⟩⟩
  have hstart : Cursor.At t k.span.start.toNat ("<<<".toList ++ " \"é\"\r\n".toList ++ body) :=
    ⟨"<?php ".toList, rfl, rfl⟩
  obtain ⟨hopened, -⟩ := heredoc_token hsize hk hcode hstart
  obtain ⟨-, hclosed, -⟩ := hopened o body hopener rfl
  exact ⟨hsize, hk, hcode, hopener, hholds, hclosed hholds⟩

end PhpImports
