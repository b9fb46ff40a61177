import PhpImports.Proofs.Import.Warning
import PhpImports.Proofs.Lexeme.Composition
import PhpImports.Proofs.Lexeme.Enclosure
import PhpImports.Proofs.Lexeme.HeredocGrammar
import PhpImports.Report

/-!
# What is reported of a text

A lexeme is at fault if it is a character that starts nothing, or if nothing closes it; what nothing
closes runs to the end of the text, so there is at most one such lexeme and it is the last. In the
report on a text these faults come first, and all that is reported of its statements are warnings
(`diagnostics_of_tokens`).
-/

namespace PhpImports

namespace Lexeme

/-- A quoted string, a heredoc or a block comment that nothing closes. -/
inductive Unclosed : TokenKind → Text → Prop
  | comment {kind : TokenKind} {body : Text} (comment : kind = .comment ∨ kind = .docComment)
      (unclosed : ¬ ['*', '/'] <:+: body) : Unclosed kind ('/' :: '*' :: body)
  | string {q : Char} {body : Text} (quote : Enclosure.IsQuote q)
      (unclosed : ∀ m, m <+: body → ¬ Enclosure.Closes (.quote q) m) :
      Unclosed .stringLiteral (q :: body)
  | heredoc {o : HeredocOpener} {body : Text} (opener : o.IsOpener)
      (unclosed : ¬ HoldsLabel o.label body) : Unclosed .heredoc (o.text ++ body)

/-- What a lexeme in front of `x` is at fault for. -/
inductive Faulted : Lexeme → Text → Prop
  | sound {l : Lexeme} {x : Text} (sound : l.fault = none) (known : l.kind ≠ .unknown)
      (closed : ¬ Unclosed l.kind l.text) : Faulted l x
  | stray {c : Char} {x : Text} :
      Faulted { kind := .unknown, text := [c], fault := some (.unexpectedChar c) } x
  | unclosed {l : Lexeme} {cause : Cause} (fault : l.fault = some cause)
      (error : cause.severity = .error) (known : l.kind ≠ .unknown)
      (unclosed : Unclosed l.kind l.text) : Faulted l []

variable {afterAccess : Bool} {l : Lexeme} {x : Text}

/-- The kinds of what can be left unclosed. -/
def enclosedKinds : List TokenKind :=
  [.comment, .docComment, .stringLiteral, .heredoc]

theorem Unclosed.mem_enclosedKinds {kind : TokenKind} {t : Text} (h : Unclosed kind t) :
    kind ∈ enclosedKinds := by
  cases h with
  | comment hkind => rcases hkind with rfl | rfl <;> decide
  | string => decide
  | heredoc => decide

theorem Faulted.of_kind (hfault : l.fault = none) (hkind : l.kind ∉ .unknown :: enclosedKinds) :
    Faulted l x := by
  refine .sound hfault ?_ ?_
  · intro hunknown
    exact hkind (hunknown ▸ List.mem_cons_self)
  · exact fun hopen => hkind (List.mem_cons_of_mem _ hopen.mem_enclosedKinds)

/-- A comment is closed unless it is opened as a block and holds no closing mark. -/
theorem not_unclosed_comment {kind : TokenKind} {text : Text}
    (hkind : kind = .comment ∨ kind = .docComment)
    (htext : ∀ body, text = '/' :: '*' :: body → ['*', '/'] <:+: body) : ¬ Unclosed kind text := by
  intro hopen
  cases hopen with
  | comment _ hunclosed => exact hunclosed (htext _ rfl)
  | string => rcases hkind with hkind | hkind <;> cases hkind
  | heredoc => rcases hkind with hkind | hkind <;> cases hkind

theorem not_unclosed_string {q : Char} {body : Text} (hquote : Enclosure.IsQuote q)
    (hclosed : Enclosure.close [.quote q] body = (body, some [])) :
    ¬ Unclosed .stringLiteral (q :: body) := by
  intro hopen
  cases hopen with
  | comment hkind => rcases hkind with hkind | hkind <;> cases hkind
  | string _ hunclosed =>
    exact hunclosed body List.prefix_rfl ((Enclosure.close_iff hquote).1 hclosed)

/-- A text that opens a heredoc opens no other one. -/
theorem unclosed_heredoc_iff {o : HeredocOpener} {body : Text} (hopener : o.IsOpener) :
    Unclosed .heredoc (o.text ++ body) ↔ ¬ HoldsLabel o.label body := by
  constructor
  · generalize htext : o.text ++ body = text
    intro hopen
    cases hopen with
    | comment hkind => rcases hkind with hkind | hkind <;> cases hkind
    | @heredoc o' body' hopener' hunclosed =>
      obtain ⟨s, hs⟩ : ∃ s, "<<<".toList ++ s = o.text ++ body :=
        ⟨_, by rw [HeredocOpener.text_eq, List.append_assoc]⟩
      have hread := HeredocOpener.read?_iff.2 ⟨hopener, hs.symm⟩
      have hread' := HeredocOpener.read?_iff.2 ⟨hopener', (hs.trans htext).symm⟩
      obtain ⟨rfl, rfl⟩ := Prod.mk.inj (Option.some.inj (hread.symm.trans hread'))
      exact hunclosed
  · exact .heredoc hopener

/-- In code, what is left unclosed is at fault and comes last, and so does nothing else but a
character that starts nothing. -/
theorem Stands.faulted (h : Stands afterAccess l x) : Faulted l x := by
  have hother : l.fault = none → ∀ kind ∉ .unknown :: enclosedKinds, l.kind = kind →
      Faulted l x := by
    rintro hfault kind hkind rfl
    exact .of_kind hfault hkind
  have hkinds : ∀ kind ∈ tableKinds, kind ∉ .unknown :: enclosedKinds := by decide
  cases h with
  | stray _ => exact .stray
  | @line a _ hopens _ _ =>
    refine .sound rfl (by simp) (not_unclosed_comment (Or.inl rfl) ?_)
    rintro body rfl
    cases hopens
  | @block body _ hclosed =>
    have hkind := blockKind_cases body
    refine .sound rfl ?_ (not_unclosed_comment hkind ?_)
    · rcases hkind with hkind | hkind <;> simp [hkind]
    · intro b hb
      simp only [List.cons_append, List.nil_append, List.cons.injEq, true_and] at hb
      exact ⟨body, [], by rw [List.append_nil, hb]⟩
  | @openBlock body hunclosed =>
    have hkind := blockKind_cases body
    refine .unclosed rfl rfl ?_ (.comment hkind hunclosed)
    rcases hkind with hkind | hkind <;> simp [hkind]
  | string hquote hclosed => exact .sound rfl (by simp) (not_unclosed_string hquote hclosed)
  | openString hquote hopen =>
    exact .unclosed rfl rfl (by simp) (.string hquote ((Enclosure.open_iff hquote).1 hopen))
  | heredoc hreads =>
    obtain ⟨o, body, ho, rfl, hkind, htext, hfault⟩ := exists_of_heredoc? hreads
    have hopener := HeredocOpener.read?_isOpener ho
    have hknown : l.kind ≠ .unknown := by simp [hkind]
    cases hclosed : (heredocBody o.label body).2 with
    | none =>
      have happend := heredocBody_append o.label body
      rw [hclosed, Option.getD_none, List.append_nil] at happend
      rw [hclosed] at hfault
      refine .unclosed hfault rfl hknown ?_
      rw [hkind, htext, happend]
      exact .heredoc hopener ((heredocBody_eq_none_iff hopener.isLabel).1 hclosed)
    | some y =>
      rw [hclosed] at hfault
      refine .sound hfault hknown ?_
      rw [hkind, htext, unclosed_heredoc_iff hopener, not_not]
      exact holdsLabel_of_heredocBody (by simp [hclosed])
  | mark hlead => exact .of_kind rfl (hkinds _ (mem_tableKinds_of_mark hlead))
  | longMark hmem => exact .of_kind rfl (hkinds _ (mem_tableKinds_of_longMark hmem))
  | name _ _ => exact .of_kind rfl (hkinds _ (mem_tableKinds_of_name _ _))
  | blanks _ _ _ => exact hother rfl .whitespace (by decide) rfl
  | closeTag _ => exact hother rfl .closeTag (by decide) rfl
  | operator _ => exact hother rfl .punct (by decide) rfl
  | dollarName _ _ _ => exact hother rfl .variable (by decide) rfl
  | separator _ => exact hother rfl .nsSeparator (by decide) rfl
  | fullyQualified _ _ => exact hother rfl .nameFullyQualified (by decide) rfl
  | number _ _ => exact hother rfl .number (by decide) rfl

/-- Outside code nothing is at fault. -/
theorem StandsOutside.faulted {shortTags : Bool} (h : StandsOutside shortTags l x) :
    Faulted l x := by
  have hkinds : ∀ kind ∈ [TokenKind.inlineHtml, .openTag, .openTagWithEcho],
      kind ∉ .unknown :: enclosedKinds := by decide
  cases h with
  | text => exact .of_kind rfl (hkinds .inlineHtml (by simp))
  | echoTag => exact .of_kind rfl (hkinds .openTagWithEcho (by simp))
  | _ => exact .of_kind rfl (hkinds .openTag (by simp))

/-- The error on a word of one character that starts nothing. -/
structure IsUnexpected (word : Text) (span : Span) (d : Diagnostic) : Prop where
  severity : d.severity = .error
  code : d.code = some "E0001".toList
  span : d.span = some span
  message : ∃ c, word = [c] ∧ d.message = "Unexpected character: ".toList ++ [c]

theorem isUnexpected_report (c : Char) (span : Span) :
    IsUnexpected [c] span ((Cause.unexpectedChar c).report span) :=
  ⟨rfl, rfl, rfl, c, rfl, rfl⟩

theorem Mode.Stands.faulted {m : Mode} {shortTags : Bool} (h : m.Stands shortTags l x) :
    Faulted l x := by
  cases m with
  | html => exact StandsOutside.faulted h
  | code afterAccess => exact Lexeme.Stands.faulted h

theorem InRow.eq_nil {shortTags : Bool} {m : Mode} {ls : List Lexeme} (h : InRow shortTags m ls)
    (hnil : texts ls = []) : ls = [] := by
  cases h with
  | nil => rfl
  | cons hfirst _ =>
    rw [texts_cons, List.append_eq_nil_iff] at hnil
    exact absurd hnil.1 hfirst.ne_nil

theorem exists_unclosed_cons {p : Placed} (hp : ¬ Unclosed p.lexeme.kind p.lexeme.text)
    (ps : List Placed) :
    (∃ q, (p :: ps).getLast? = some q ∧ Unclosed q.lexeme.kind q.lexeme.text) ↔
      ∃ q, ps.getLast? = some q ∧ Unclosed q.lexeme.kind q.lexeme.text := by
  rw [List.getLast?_cons]
  cases ps.getLast? <;> simp [hp]

/-- In a row, one fault for each unknown character, and one more if the last lexeme is unclosed. -/
theorem InRow.diagnostics {shortTags : Bool} {m : Mode} {ls : List Lexeme}
    (h : InRow shortTags m ls) (start : Nat) :
    ∃ (ds : List Diagnostic) (last : Option Diagnostic),
      (place start ls).filterMap (·.diagnostic?) = ds ++ last.toList ∧
      List.Forall₂ (fun p d => IsUnexpected p.lexeme.text p.span d)
        ((place start ls).filter (·.lexeme.kind = .unknown)) ds ∧
      (last.isSome = true ↔
        ∃ p, (place start ls).getLast? = some p ∧ Unclosed p.lexeme.kind p.lexeme.text) ∧
      ∀ d, last = some d →
        d.severity = .error ∧ ∃ p, (place start ls).getLast? = some p ∧ d.span = some p.span := by
  induction h generalizing start with
  | nil => exact ⟨[], none, rfl, .nil, by simp [place], by simp⟩
  | @cons m l ls hfirst hrest ih =>
    have hfaulted := Mode.Stands.faulted hfirst
    obtain ⟨ds, last, hfaults, hds, hlast, hspan⟩ := ih (start + Text.size l.text)
    have hbehind : ∀ d, last = some d → d.severity = .error ∧
        ∃ p, (place start (l :: ls)).getLast? = some p ∧ d.span = some p.span := by
      intro d hd
      obtain ⟨herror, p, hp, hspan⟩ := hspan d hd
      exact ⟨herror, p, by rw [place, List.getLast?_cons, hp]; rfl, hspan⟩
    generalize htexts : texts ls = x at hfaulted
    cases hfaulted with
    | @unclosed _ cause hfault herror hknown hopen =>
      obtain rfl := hrest.eq_nil htexts
      refine ⟨[], some (cause.report (.ofNat start (start + Text.size l.text))), ?_, ?_, ?_, ?_⟩
      · simp [place, Placed.diagnostic?, hfault]
      · simp [place, hknown]
      · simp [place, hopen]
      · rintro d hd
        cases hd
        exact ⟨herror, _, rfl, rfl⟩
    | @stray c =>
      have hopen : ¬ Unclosed .unknown [c] := fun h => absurd h.mem_enclosedKinds (by decide)
      refine ⟨(Cause.unexpectedChar c).report (.ofNat start (start + Text.size [c])) :: ds, last,
        ?_, ?_, ?_, hbehind⟩
      · rw [place, List.filterMap_cons, hfaults]
        rfl
      · rw [place, List.filter_cons_of_pos (by simp)]
        exact .cons (isUnexpected_report c _) hds
      · rw [place, hlast]
        exact (exists_unclosed_cons hopen _).symm
    | sound hsound hknown hclosed =>
      refine ⟨ds, last, ?_, ?_, ?_, hbehind⟩
      · rw [place, List.filterMap_cons, hfaults, Placed.diagnostic?, hsound]
        rfl
      · rw [place, List.filter_cons_of_neg (by simpa using hknown)]
        exact hds
      · rw [place, hlast]
        exact (exists_unclosed_cons hclosed _).symm

end Lexeme

open Lexeme

/-- The errors on a text: one for each unknown character, in order, and one more for a last token
that nothing closes. -/
def HasFaults (shortTags : Bool) (t : Text) (errors : List Diagnostic) : Prop :=
  ∃ (ds : List Diagnostic) (last : Option Diagnostic), errors = ds ++ last.toList ∧
    List.Forall₂ (fun k d => IsUnexpected (k.span.text t) k.span d)
      ((t.lex shortTags).tokens.filter (·.kind = .unknown)) ds ∧
    (last.isSome = true ↔
      ∃ k, (t.lex shortTags).tokens.getLast? = some k ∧ Unclosed k.kind (k.span.text t)) ∧
    ∀ d, last = some d → d.severity = .error ∧
      ∃ k, (t.lex shortTags).tokens.getLast? = some k ∧ d.span = some k.span ∧
        k.span.stop.toNat = t.size

variable {shortTags : Bool} {t : Text}

/-- All that is reported of a text, its statements aside, are errors. -/
theorem severity_of_mem_diagnostics_lex {d : Diagnostic} (h : d ∈ (t.lex shortTags).diagnostics) :
    d.severity = .error := by
  obtain ⟨ds, last, hfaults, hds, -, hlast⟩ := (inRow_lexemes shortTags t).diagnostics 0
  rw [show (t.lex shortTags).diagnostics = _ from hfaults] at h
  rcases List.mem_append.1 h with h | h
  · obtain ⟨i, hi, rfl⟩ := List.mem_iff_getElem.1 h
    exact (hds.get (hds.length_eq ▸ hi) hi).severity
  · exact (hlast d (Option.mem_toList.1 h)).1

/-- The last token ends where the text ends. -/
theorem stop_of_getLast? (ht : t.size < UInt32.size) {k : Token}
    (hk : (t.lex shortTags).tokens.getLast? = some k) : k.span.stop.toNat = t.size := by
  obtain ⟨A, l, hsplit, rfl⟩ := getLast?_tokens_lex hk
  have htexts := texts_lexemes shortTags t
  rw [hsplit, texts_append, texts_cons, texts_nil, List.append_nil] at htexts
  rw [← htexts, Text.size_append] at ht ⊢
  simp only [Span.ofNat, Nat.toUInt32, UInt32.toNat_ofNat']
  exact Nat.mod_eq_of_lt ht

theorem hasFaults_lex (ht : t.size < UInt32.size) :
    HasFaults shortTags t (t.lex shortTags).diagnostics := by
  obtain ⟨ds, last, hfaults, hds, hlast, hspan⟩ := (inRow_lexemes shortTags t).diagnostics 0
  have hpieces : (place 0 (t.lexemes shortTags)).map (·.piece) =
      (t.lex shortTags).tokens.map (·.inText t) := (Text.inText_tokens ht).symm
  have hgetLast : ((place 0 (t.lexemes shortTags)).getLast?).map (·.piece) =
      ((t.lex shortTags).tokens.getLast?).map (·.inText t) := by
    rw [← List.getLast?_map, hpieces, List.getLast?_map]
  refine ⟨ds, last, hfaults, ?_, ?_, ?_⟩
  · have hunknown : ((place 0 (t.lexemes shortTags)).filter (·.lexeme.kind = .unknown)).map
        (·.piece) = ((t.lex shortTags).tokens.filter (·.kind = .unknown)).map (·.inText t) := by
      have hfilter := congrArg (List.filter (fun p : Piece => p.kind = .unknown)) hpieces
      rwa [List.filter_map, List.filter_map] at hfilter
    have hpiece : List.Forall₂ (fun (p : Piece) d => IsUnexpected p.text p.span d)
        (((place 0 (t.lexemes shortTags)).filter (·.lexeme.kind = .unknown)).map (·.piece)) ds :=
      List.forall₂_map_left_iff.2 hds
    rw [hunknown] at hpiece
    exact List.forall₂_map_left_iff.1 hpiece
  · have hpiece : (∃ p, (place 0 (t.lexemes shortTags)).getLast? = some p ∧
        Unclosed p.lexeme.kind p.lexeme.text) ↔
        ∃ p : Piece, ((place 0 (t.lexemes shortTags)).getLast?).map (·.piece) = some p ∧
          Unclosed p.kind p.text := by
      simp [Placed.piece]
    rw [hlast, hpiece, hgetLast]
    simp [Token.inText]
  · intro d hd
    obtain ⟨herror, p, hp, hplace⟩ := hspan d hd
    rw [hp, Option.map_some, eq_comm, Option.map_eq_some_iff] at hgetLast
    obtain ⟨k, hk, hpiece⟩ := hgetLast
    have hsame : p.span = k.span := (congrArg Piece.span hpiece).symm
    exact ⟨herror, k, hk, by rw [hplace, hsame], stop_of_getLast? ht hk⟩

/-- The errors on a text are those of its tokens, and the report on it goes on with warnings. -/
theorem diagnostics_of_tokens (ht : t.size < UInt32.size) (name : Text) :
    HasFaults shortTags t (t.lex shortTags).diagnostics ∧
      ∃ errors warnings,
        (ImportReport.ofText shortTags name t).diagnostics = errors ++ warnings ∧
        errors = (t.unifyLineEndings.lex shortTags).diagnostics ∧
        HasFaults shortTags t.unifyLineEndings errors ∧ Warns warnings := by
  have hsize := Text.size_unifyLineEndings_le t
  exact ⟨hasFaults_lex ht, _, _, rfl, rfl, hasFaults_lex (Nat.lt_of_le_of_lt hsize ht),
    FileImports.warns_ofPieces _⟩

/-- An unknown character and an open string, in a statement that nothing ends. -/
theorem diagnostics_of_tokens_open :
    let t : Text := "<?php use \x01\r\n\"é\x7b$a[\"k\"]".toList
    t.size < UInt32.size ∧
      (ImportReport.ofText false "a.php".toList t).diagnostics.map (·.severity) =
        [.error, .error, .warning] ∧
      HasFaults false t (t.lex false).diagnostics ∧
      ∃ errors warnings,
        (ImportReport.ofText false "a.php".toList t).diagnostics = errors ++ warnings ∧
        errors = (t.unifyLineEndings.lex false).diagnostics ∧
        HasFaults false t.unifyLineEndings errors ∧ Warns warnings := by
  intro t
  have hsize : t.size < UInt32.size := by decide
  exact ⟨hsize, by decide +kernel, diagnostics_of_tokens hsize _⟩

end PhpImports
