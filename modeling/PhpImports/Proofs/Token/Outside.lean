import PhpImports.Proofs.Import.Composition
import PhpImports.Proofs.Import.Gist
import PhpImports.Proofs.Lexeme.Outside
import PhpImports.Proofs.Report.LineEnding
import PhpImports.Proofs.Token.Reading

/-!
# Tokens outside code

Tokens change between code and text outside it as lexemes do, and no tag opens at any byte of text
outside code, not even inside a character (`At.tagFree_iff`). So the first token of a text starts no
statement and can be left out, and text with no open tag in it can be put in front of an open tag
without a change to what is imported (`tokens_keep_mode`).
-/

namespace PhpImports

open Lexeme

variable {shortTags : Bool}

namespace Cursor

variable {s t x : Text} {i : Nat}

/-- A text is free of open tags if none opens at any of its bytes. -/
theorem At.tagFree_iff (h : At s i (t ++ x)) : TagFree shortTags t x ↔
    ∀ k, i ≤ k → k < i + t.size → Cursor.openTagAt? shortTags s k = .ok none := by
  have hat : ∀ a c b, t = a ++ c :: b → At s (i + Text.size a) (c :: (b ++ x)) := by
    rintro a c b rfl
    rw [List.append_assoc] at h
    exact h.advance
  constructor
  · intro hfree k hle hlt
    obtain ⟨a, c, b, n, hsplit, hn, hk⟩ := exists_char_of_lt (t := t) (i := k - i) (by omega)
    obtain rfl : k = i + Text.size a + n := by omega
    rcases Nat.eq_zero_or_pos n with rfl | hpos
    · rw [Nat.add_zero, (hat a c b hsplit).openTagAt?, hfree a c b hsplit]
    · exact (hat a c b hsplit).openTagAt?_inside hn hpos
  · intro hnone a c b hsplit
    have hpos : 0 < c.utf8Size := Char.utf8Size_pos c
    have hsize : t.size = Text.size a + (c.utf8Size + Text.size b) := by
      rw [hsplit, Text.size_append, Text.size_cons]
    have hread := hnone (i + Text.size a) (by omega) (by omega)
    rw [(hat a c b hsplit).openTagAt?] at hread
    exact Except.ok.inj hread

end Cursor

namespace FileImports

theorem ofPieces_skipOpening {ps : List Piece} (h : ∀ p ∈ ps.head?, p.kind ≠ .kwUse) :
    ofPieces (skipOpening ps) = ofPieces ps := by
  cases ps with
  | nil => rfl
  | cons p ps =>
    rw [ofPieces, ofPieces, Statement.readAll, if_neg (h p rfl)]
    rfl

end FileImports

/-- Text free of tags changes no import of the text behind it. -/
theorem table_append_of_tagFree {html t : Text} (hfree : TagFree shortTags html [])
    (htag : (openTag? shortTags t).isSome = true) :
    (FileImports.ofPieces (skipOpening ((html ++ t).lex shortTags).pieces)).table =
      (FileImports.ofPieces (skipOpening (t.lex shortTags).pieces)).table := by
  have htable : ∀ s : Text, (FileImports.ofPieces (skipOpening (s.lex shortTags).pieces)).table =
      (FileImports.ofPieces (gists ((s.lexemes shortTags).drop 1))).table := by
    intro s
    rw [← erase_ofPieces_lex]
    rfl
  rcases eq_or_ne html [] with rfl | hne
  · rfl
  · obtain ⟨l, ls, hlexemes, hkind⟩ := exists_lexemes_of_openTag htag
    have hmark : l.kind.isTrivia = false ∧ l.kind ≠ .kwUse := by
      rcases hkind with hkind | hkind <;> rw [hkind] <;> decide
    have hgists : gists (l :: ls) = l.gist :: gists ls := by
      rw [gists, List.filter_cons_of_pos (by simp [hmark.1])]
      rfl
    rw [htable, htable, lexemes_append_of_tagFree hfree htag hne, hlexemes, List.drop_one,
      List.tail_cons, List.drop_one, List.tail_cons, hgists, FileImports.ofPieces_cons]
    exact if_neg hmark.2

variable {t : Text}

/-- Every token is where its kind may stand. -/
theorem keepsMode_of_tokens {A B : List Token} {k : Token}
    (hsplit : (t.lex shortTags).tokens = A ++ k :: B) :
    KeepsMode (A.getLast?.map (·.kind)) k.kind (B.head?.map (·.kind)) := by
  have hkinds := kinds_lex shortTags t
  rw [hsplit, List.map_append, List.map_cons, eq_comm, List.map_eq_append_iff] at hkinds
  obtain ⟨A', C', hlexemes, hbefore, hrest⟩ := hkinds
  obtain ⟨l, B', rfl, hkind, hbehind⟩ := List.map_eq_cons_iff.1 hrest
  have hrow := inRow_lexemes shortTags t
  rw [hlexemes] at hrow
  have hkeeps := hrow.keepsMode
  rwa [← List.getLast?_map, hbefore, hkind, ← List.head?_map, hbehind, List.getLast?_map,
    List.head?_map] at hkeeps

/-- No tag opens at a byte of text outside code. -/
theorem openTagAt?_of_inlineHtml (ht : t.size < UInt32.size) {k : Token}
    (hk : k ∈ (t.lex shortTags).tokens) (hkind : k.kind = .inlineHtml) {i : Nat}
    (hle : k.span.start.toNat ≤ i) (hlt : i < k.span.stop.toNat) :
    Cursor.openTagAt? shortTags t i = .ok none := by
  obtain ⟨n, hn⟩ := List.getElem?_of_mem hk
  obtain ⟨l, x, hreads⟩ := exists_reads ht hn
  have hlexeme : l.kind = .inlineHtml := hreads.kind ▸ hkind
  have hstands := hreads.stands
  have hmode := hstands.isOutside_iff.1 (by rw [hlexeme]; rfl)
  rw [hmode] at hstands
  have hstarts := hreads.starts.size
  have hstops := hreads.stops.size
  rw [Text.size_append] at hstarts
  exact hreads.starts.tagFree_iff.1 (StandsOutside.tagFree hstands hlexeme) i hle (by omega)

/-- What comes first starts no statement. -/
theorem kind_ne_kwUse_of_head? {k : Token} (hk : k ∈ (t.lex shortTags).tokens.head?) :
    k.kind ≠ .kwUse := by
  obtain ⟨B, hB⟩ := List.head?_eq_some_iff.1 hk
  have hkeeps := keepsMode_of_tokens (A := []) hB
  intro hkind
  obtain ⟨b, hb, -⟩ := hkeeps.code (by simp [hkind]) (by simp [hkind]) (by simp [hkind])
  cases hb

theorem ofTokens_skipOpening :
    FileImports.ofTokens t (skipOpening (t.lex shortTags).tokens) =
      FileImports.ofTokens t (t.lex shortTags).tokens := by
  rw [FileImports.ofTokens, FileImports.ofTokens, skipOpening, List.map_drop]
  refine FileImports.ofPieces_skipOpening fun p hp => ?_
  rw [List.head?_map] at hp
  obtain ⟨k, hk, rfl⟩ := Option.map_eq_some_iff.1 hp
  exact kind_ne_kwUse_of_head? hk

/-- The same for a report, whose source has its line endings unified. -/
theorem ImportReport.table_append_of_tagFree {html : Text} (hlong : (html ++ t).size < UInt32.size)
    (hfree : TagFree shortTags html []) (htag : (openTag? shortTags t).isSome = true)
    (name : Text) : (ofText shortTags name (html ++ t)).table = (ofText shortTags name t).table := by
  have hshort : t.size < UInt32.size := by
    rw [Text.size_append] at hlong
    omega
  obtain ⟨r, hr⟩ := exists_of_isSome_openTag? htag
  have htag' := (isSome_openTag?_unify t).trans htag
  rw [ofText_of_lt hlong, ofText_of_lt hshort]
  simp only
  rw [Text.unifyLineEndings_append html t (by simp [hr]),
    PhpImports.table_append_of_tagFree hfree.unify htag']

/-- Reading is outside code where it starts and behind text outside code and close tags, and every
token is read where its kind belongs. No tag opens at a byte of text outside code. So what comes
first can be left out, and text free of tags in front of a tag changes no import. -/
theorem tokens_keep_mode (ht : t.size < UInt32.size) (shortTags : Bool) (name : Text) :
    let tokens := (t.lex shortTags).tokens
    (∀ A k B, tokens = A ++ k :: B →
      KeepsMode (A.getLast?.map (·.kind)) k.kind (B.head?.map (·.kind)) ∧
      (k.kind = .inlineHtml → ∀ i, k.span.start.toNat ≤ i → i < k.span.stop.toNat →
        Cursor.openTagAt? shortTags t i = .ok none)) ∧
    (∀ k ∈ tokens.head?, k.kind ≠ .kwUse) ∧
    FileImports.ofTokens t (skipOpening tokens) = FileImports.ofTokens t tokens ∧
    ∀ html : Text, (html ++ t).size < UInt32.size →
      (∀ i < html.size, Cursor.openTagAt? shortTags html i = .ok none) →
      (∃ tag, Cursor.openTagAt? shortTags t 0 = .ok (some tag)) →
      (FileImports.ofTokens (html ++ t) (skipOpening ((html ++ t).lex shortTags).tokens)).table =
        (FileImports.ofTokens t (skipOpening tokens)).table ∧
      (ImportReport.ofText shortTags name (html ++ t)).table =
        (ImportReport.ofText shortTags name t).table := by
  refine ⟨?_, fun k hk => kind_ne_kwUse_of_head? hk, ofTokens_skipOpening, ?_⟩
  · intro A k B hsplit
    refine ⟨keepsMode_of_tokens hsplit, fun hkind i hle hlt => ?_⟩
    exact openTagAt?_of_inlineHtml ht (by simp [hsplit]) hkind hle hlt
  · rintro html hlong hnone ⟨tag, htag⟩
    have hat : Cursor.At html 0 (html ++ []) := by
      rw [List.append_nil]
      exact .start html
    have hfree : TagFree shortTags html [] :=
      hat.tagFree_iff.2 fun i _ hlt => hnone i (by omega)
    rw [(Cursor.At.start t).openTagAt?] at htag
    have hopens : (openTag? shortTags t).isSome = true := by
      rw [Except.ok.inj htag]
      rfl
    refine ⟨?_, ImportReport.table_append_of_tagFree hlong hfree hopens name⟩
    rw [ofTokens_lex hlong, ofTokens_lex ht, table_append_of_tagFree hfree hopens]

/-- Text that breaks off in the middle of a tag, where another tag follows. -/
theorem tokens_keep_mode_broken_off :
    let t : Text := "<?php use A;?>é<?=use B;".toList
    let html : Text := "é<?ph".toList
    let text : Token := ⟨.inlineHtml, ⟨14, 16⟩⟩
    let tokens := (t.lex false).tokens
    t.size < UInt32.size ∧ (html ++ t).size < UInt32.size ∧
      tokens = tokens.take 6 ++ text :: tokens.drop 7 ∧
      KeepsMode (some .closeTag) .inlineHtml (some .openTagWithEcho) ∧
      Cursor.openTagAt? false t 15 = .ok none ∧
      FileImports.ofTokens t (skipOpening tokens) = FileImports.ofTokens t tokens ∧
      (∀ i < html.size, Cursor.openTagAt? false html i = .ok none) ∧
      (∃ tag, Cursor.openTagAt? false t 0 = .ok (some tag)) ∧
      (ImportReport.ofText false [] t).table.aliases = ["A".toList, "B".toList] ∧
      (ImportReport.ofText false [] (html ++ t)).table =
        (ImportReport.ofText false [] t).table := by
  intro t html text tokens
  have hsize : t.size < UInt32.size := by decide
  have hlong : (html ++ t).size < UInt32.size := by decide
  have hsplit : tokens = tokens.take 6 ++ text :: tokens.drop 7 := by decide +kernel
  have hfree : ∀ i < html.size, Cursor.openTagAt? false html i = .ok none := by decide +kernel
  have htag : ∃ tag, Cursor.openTagAt? false t 0 = .ok (some tag) :=
    ⟨(.openTag, 6), by decide +kernel⟩
  obtain ⟨hplaces, -, hskip, hfront⟩ := tokens_keep_mode hsize false []
  obtain ⟨hkeeps, hnone⟩ := hplaces _ _ _ hsplit
  have hbefore : (tokens.take 6).getLast?.map (·.kind) = some .closeTag := by decide +kernel
  have hbehind : (tokens.drop 7).head?.map (·.kind) = some .openTagWithEcho := by decide +kernel
  rw [hbefore, hbehind] at hkeeps
  exact ⟨hsize, hlong, hsplit, hkeeps, hnone rfl 15 (by decide) (by decide), hskip, hfree, htag,
    by decide +kernel, (hfront html hlong hfree htag).2⟩

end PhpImports
