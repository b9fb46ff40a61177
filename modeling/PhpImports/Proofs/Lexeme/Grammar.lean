import PhpImports.Proofs.Lexeme.Comment
import PhpImports.Proofs.Lexeme.NamePart
import PhpImports.Proofs.Lexeme.Quoted

/-!
# The lexical grammar of code

A lexeme stands in front of a text if it has one of the forms below and the text does not go on with
it. In code, reading yields exactly the lexeme that stands in front of what is left (`ofCode_iff`).
A lexeme is judged with the characters behind it present, so no longer match is split. What numbers
and heredocs look like inside is left to their own modules.
-/

namespace PhpImports

theorem Lead.of_isDigit {c : Char} (h : c.isDigit = true) : Lead.of c = .digit := by
  have hrange := Bool.and_eq_true_iff.1 h
  have hlo : 48 ≤ c.val.toNat := UInt32.le_iff_toNat_le.1 (of_decide_eq_true hrange.1)
  have hhi : c.val.toNat ≤ 57 := UInt32.le_iff_toNat_le.1 (of_decide_eq_true hrange.2)
  have hne : ∀ k : Char, ¬ (48 ≤ k.val.toNat ∧ k.val.toNat ≤ 57) → c ≠ k := by
    rintro k hk rfl
    exact hk ⟨hlo, hhi⟩
  have hblank : isBlank c = false := by
    simp [isBlank, isIndent, hne ' ' (by decide), hne '\t' (by decide), hne '\n' (by decide),
      hne '\r' (by decide)]
  have halpha : c.isAlpha = false := by
    rw [Bool.eq_false_iff]
    intro halpha
    rcases Bool.or_eq_true_iff.1 halpha with hupper | hlower
    · have hletter : c.val ≥ 'A'.val ∧ c.val ≤ 'Z'.val := of_decide_eq_true hupper
      have hupper' : 65 ≤ c.val.toNat := UInt32.le_iff_toNat_le.1 hletter.1
      omega
    · have hlower' : 97 ≤ c.val.toNat :=
        UInt32.le_iff_toNat_le.1 (of_decide_eq_true (Bool.and_eq_true_iff.1 hlower).1)
      omega
  have hlabel : isLabelStart c = false := by
    have hhigh : ¬ 128 ≤ c.toNat := by
      have htoNat : c.toNat = c.val.toNat := rfl
      omega
    simp [isLabelStart, hne '_' (by decide), halpha, hhigh]
  rw [Lead.of, hblank, hlabel, h]
  rfl

namespace Lexeme

/-- Marks of two characters or three. -/
def longMarks : List (Text × TokenKind) :=
  [(['#', '['], .attribute), (['?', '-', '>'], .nullsafeArrow), (['-', '>'], .arrow),
   ([':', ':'], .doubleColon)]

/-- The kinds that tables of marks and of words give. -/
def tableKinds : List TokenKind :=
  markKinds ++ longMarks.map (·.2) ++ nameKinds

theorem mem_tableKinds_of_mark {c : Char} {kind : TokenKind} (h : Lead.of c = .mark kind) :
    kind ∈ tableKinds :=
  List.mem_append_left _ (List.mem_append_left _ (mem_markKinds h))

theorem mem_tableKinds_of_longMark {t : Text} {kind : TokenKind} (h : (t, kind) ∈ longMarks) :
    kind ∈ tableKinds :=
  List.mem_append_left _ (List.mem_append_right _ (List.mem_map_of_mem h))

theorem mem_tableKinds_of_name (afterAccess : Bool) (n : Text) :
    nameKind afterAccess n ∈ tableKinds :=
  List.mem_append_right _ (nameKind_mem afterAccess n)

/-- A line comment can open so. -/
def opensLine : Text → Bool
  | '/' :: '/' :: _ => true
  | '#' :: r => r.head? ≠ some '['
  | _ => false

theorem opensLine_cases {a : Text} (h : opensLine a = true) :
    (∃ r, a = '/' :: '/' :: r) ∨ ∃ r, a = '#' :: r ∧ r.head? ≠ some '[' := by
  rw [opensLine.eq_def] at h
  split at h
  · exact Or.inl ⟨_, rfl⟩
  · exact Or.inr ⟨_, rfl, by simpa using h⟩
  · cases h

/-- What ends a line comment does not make an attribute of it. -/
theorem head?_ne_bracket {r x : Text} (h : r.head? ≠ some '[')
    (hends : x = [] ∨ endsLineComment x = true) : (r ++ x).head? ≠ some '[' := by
  cases r with
  | cons c r => exact h
  | nil =>
    rcases hends with rfl | hends
    · exact h
    · intro hbracket
      obtain ⟨t, rfl⟩ := List.head?_eq_some_iff.1 hbracket
      cases hends

/-- The operator character `c` goes on with nothing in `x`. -/
def standsAlone (c : Char) (x : Text) : Bool :=
  match Lead.of c with
  | .operator => true
  | .slash => x.head? ≠ some '/' && x.head? ≠ some '*'
  | .question => x.head? ≠ some '>' && !Text.startsWith x "->".toList
  | .minus => x.head? ≠ some '>'
  | .colon => x.head? ≠ some ':'
  | .dollar => !Text.startsLabel x
  | .less => !Text.startsWith x "<<".toList || (heredoc? (x.drop 2)).isNone
  | .dot => !x.head?.any Char.isDigit
  | _ => false

def startsNumber : Text → Bool
  | [] => false
  | c :: r => c.isDigit || (c = '.' && r.head?.any Char.isDigit)

/-- The kind of the block comment with this body. -/
def blockKind (body : Text) : TokenKind :=
  if isDocBody body then .docComment else .comment

theorem blockKind_cases (body : Text) :
    blockKind body = .comment ∨ blockKind body = .docComment := by
  rw [blockKind]
  split
  · exact Or.inr rfl
  · exact Or.inl rfl

/-- In code, the lexeme stands in front of the text. -/
inductive Stands (afterAccess : Bool) : Lexeme → Text → Prop
  | blanks {w x : Text} (some : w ≠ []) (blank : ∀ c ∈ w, isBlank c = true)
      (ends : x.head?.any isBlank = false) :
      Stands afterAccess { kind := .whitespace, text := w } x
  | line {a x : Text} (opens : opensLine a = true)
      (inLine : '\n' ∉ a ∧ '\r' ∉ a ∧ ¬ ['?', '>'] <:+: a)
      (ends : x = [] ∨ endsLineComment x = true) :
      Stands afterAccess { kind := .comment, text := a } x
  | block {body x : Text} (closed : ¬ ['*', '/'] <:+: body) :
      Stands afterAccess
        { kind := blockKind body, text := ['/', '*'] ++ body ++ ['*', '/'] } x
  | openBlock {body : Text} (unclosed : ¬ ['*', '/'] <:+: body) :
      Stands afterAccess
        { kind := blockKind body, text := ['/', '*'] ++ body,
          fault := some .unterminatedBlockComment } []
  | mark {c : Char} {kind : TokenKind} {x : Text} (lead : Lead.of c = .mark kind) :
      Stands afterAccess { kind, text := [c] } x
  | longMark {t x : Text} {kind : TokenKind} (mem : (t, kind) ∈ longMarks) :
      Stands afterAccess { kind, text := t } x
  | closeTag {e x : Text} (ends : closeTagLength (e ++ x) = 2 + e.length) :
      Stands afterAccess { kind := .closeTag, text := '?' :: '>' :: e } x
  | operator {c : Char} {x : Text} (alone : standsAlone c x = true) :
      Stands afterAccess { kind := .punct, text := [c] } x
  | dollarName {n x : Text} (starts : n.startsLabel = true) (label : ∀ c ∈ n, isLabelChar c = true)
      (ends : x.head?.any isLabelChar = false) :
      Stands afterAccess { kind := .variable, text := '$' :: n } x
  | string {q : Char} {body x : Text} (quote : Enclosure.IsQuote q)
      (closed : Enclosure.close [.quote q] body = (body, some [])) :
      Stands afterAccess { kind := .stringLiteral, text := q :: body } x
  | openString {q : Char} {body : Text} (quote : Enclosure.IsQuote q)
      (unclosed : Enclosure.close [.quote q] body = (body, none)) :
      Stands afterAccess
        { kind := .stringLiteral, text := q :: body, fault := some .unterminatedString } []
  | heredoc {t x : Text} {l : Lexeme} (reads : heredoc? t = some (l, x)) :
      Stands afterAccess l x
  | separator {x : Text} (ends : x.startsLabel = false) :
      Stands afterAccess { kind := .nsSeparator, text := [PhpImports.separator] } x
  | fullyQualified {n x : Text} (starts : n.startsLabel = true) (run : nameRun (n ++ x) = (n, x)) :
      Stands afterAccess { kind := .nameFullyQualified, text := PhpImports.separator :: n } x
  | name {n x : Text} (starts : n.startsLabel = true) (run : nameRun (n ++ x) = (n, x)) :
      Stands afterAccess { kind := nameKind afterAccess n, text := n } x
  | number {n x : Text} (starts : startsNumber (n ++ x) = true) (reads : numeral (n ++ x) = n) :
      Stands afterAccess { kind := .number, text := n } x
  | stray {c : Char} {x : Text} (lead : Lead.of c = .stray) :
      Stands afterAccess { kind := .unknown, text := [c], fault := some (.unexpectedChar c) } x

variable {afterAccess : Bool}

theorem startsLabel_append_of_startsLabel {n : Text} (h : n.startsLabel = true) (x : Text) :
    Text.startsLabel (n ++ x) = true := by
  cases n with
  | nil => cases h
  | cons c n => exact h

/-- What stands in front of a text is read there. -/
theorem Stands.ofCode {l : Lexeme} {x : Text} (h : Stands afterAccess l x) :
    ∃ c r, l.text ++ x = c :: r ∧ ofCode afterAccess c r = (l, x) := by
  cases h with
  | @blanks w x hsome hblank hends =>
    obtain ⟨c, w, rfl⟩ := List.exists_cons_of_ne_nil hsome
    obtain ⟨htake, hdrop⟩ := Text.takeWhile_append_eq hblank hends
    have hlead : Lead.of c = .blank := by rw [Lead.of, if_pos (hblank c List.mem_cons_self)]
    refine ⟨c, w ++ x, rfl, ?_⟩
    rw [List.cons_append] at htake hdrop
    rw [Lexeme.ofCode, hlead]
    simp only [run, htake, hdrop]
  | @line a x hopens hline hends =>
    have hbreak : Text.breakAt endsLineComment (a ++ x) = (a, x) :=
      break_lineComment_iff.2 ⟨hends, hline⟩
    have hcomment : lineComment (a ++ x) = ({ kind := .comment, text := a }, x) := by
      rw [lineComment, upTo, hbreak]
    rcases opensLine_cases hopens with ⟨r, rfl⟩ | ⟨r, rfl, hhead⟩
    · exact ⟨'/', _, rfl, hcomment⟩
    · refine ⟨'#', r ++ x, rfl, ?_⟩
      rw [Lexeme.ofCode, show Lead.of '#' = .hash from rfl]
      simp only [if_neg (head?_ne_bracket hhead hends)]
      exact hcomment
  | @block body x hclosed =>
    have hbody := blockBody_eq hclosed x
    refine ⟨'/', '*' :: (body ++ ['*', '/'] ++ x), by simp, ?_⟩
    have hcode : Lexeme.ofCode afterAccess '/' ('*' :: (body ++ ['*', '/'] ++ x)) =
        blockComment (body ++ ['*', '/'] ++ x) := rfl
    rw [hcode, blockComment, hbody, isDocBody_append]
    simp [enclosed, blockKind]
  | @openBlock body hunclosed =>
    have hbody := blockBody_eq_open hunclosed
    refine ⟨'/', '*' :: body, by simp, ?_⟩
    have hcode : Lexeme.ofCode afterAccess '/' ('*' :: body) = blockComment body := rfl
    rw [hcode, blockComment, hbody]
    rfl
  | @mark c kind x hlead =>
    refine ⟨c, x, rfl, ?_⟩
    rw [Lexeme.ofCode, hlead]
    rfl
  | @longMark t x kind hmem =>
    simp only [longMarks, List.mem_cons, Prod.mk.injEq, List.not_mem_nil, or_false] at hmem
    rcases hmem with ⟨rfl, rfl⟩ | ⟨rfl, rfl⟩ | ⟨rfl, rfl⟩ | ⟨rfl, rfl⟩
    · exact ⟨'#', '[' :: x, rfl, rfl⟩
    · refine ⟨'?', '-' :: '>' :: x, rfl, ?_⟩
      rw [Lexeme.ofCode, show Lead.of '?' = .question from rfl]
      simp [cut]
    · exact ⟨'-', '>' :: x, rfl, rfl⟩
    · exact ⟨':', ':' :: x, rfl, rfl⟩
  | @closeTag e x hends =>
    refine ⟨'?', '>' :: (e ++ x), rfl, ?_⟩
    have hcode : Lexeme.ofCode afterAccess '?' ('>' :: (e ++ x)) =
        cut .closeTag (closeTagLength (e ++ x)) ('?' :: '>' :: (e ++ x)) := rfl
    rw [hcode, hends, Nat.add_comm, cut]
    simp
  | @operator c x halone =>
    refine ⟨c, x, rfl, ?_⟩
    rw [standsAlone] at halone
    rw [Lexeme.ofCode]
    generalize Lead.of c = lead at halone ⊢
    cases lead with simp only [Bool.and_eq_true, decide_eq_true_iff, Bool.not_eq_true',
      Bool.false_eq_true] at halone ⊢
    | operator => rfl
    | slash =>
      rw [if_neg halone.1, if_neg halone.2]
      rfl
    | question =>
      rw [if_neg halone.1, halone.2]
      rfl
    | minus | colon =>
      rw [if_neg halone]
      rfl
    | dollar | dot =>
      rw [halone]
      rfl
    | less =>
      have hnone :
          (if Text.startsWith x "<<".toList then heredoc? (x.drop 2) else none) = none := by
        split
        · next hstart =>
          rw [hstart] at halone
          simpa using halone
        · rfl
      rw [hnone]
      rfl
  | @dollarName n x hstarts hlabel hends =>
    obtain ⟨htake, hdrop⟩ := Text.takeWhile_append_eq hlabel hends
    have hstart := startsLabel_append_of_startsLabel hstarts x
    refine ⟨'$', n ++ x, rfl, ?_⟩
    rw [Lexeme.ofCode, show Lead.of '$' = .dollar from rfl]
    simp only [hstart, if_true, variableName, htake, hdrop]
  | @string q body x hquote hclosed =>
    refine ⟨q, body ++ x, rfl, ?_⟩
    rw [Lexeme.ofCode, Enclosure.isQuote_iff.1 hquote]
    simp only [quoted,
      Enclosure.close_append_right (Enclosure.isNested_quote hquote) hclosed x]
    rfl
  | @openString q body hquote hunclosed =>
    refine ⟨q, body, by simp, ?_⟩
    rw [Lexeme.ofCode, Enclosure.isQuote_iff.1 hquote]
    simp only [quoted, hunclosed]
    rfl
  | @heredoc t x l hreads =>
    refine ⟨'<', '<' :: '<' :: t, (heredoc?_splits hreads).1, ?_⟩
    have hstart : Text.startsWith ('<' :: '<' :: t) "<<".toList = true :=
      Text.startsWith_iff.2 ⟨t, rfl⟩
    rw [Lexeme.ofCode, show Lead.of '<' = .less from rfl]
    simp only [hstart, if_true, List.drop_succ_cons, List.drop_zero, hreads]
  | @separator x hends =>
    refine ⟨PhpImports.separator, x, rfl, ?_⟩
    rw [Lexeme.ofCode, show Lead.of PhpImports.separator = .separator from rfl]
    simp only [hends, Bool.false_eq_true, if_false]
    rfl
  | @fullyQualified n x hstarts hrun =>
    have hstart := startsLabel_append_of_startsLabel hstarts x
    refine ⟨PhpImports.separator, n ++ x, rfl, ?_⟩
    rw [Lexeme.ofCode, show Lead.of PhpImports.separator = .separator from rfl]
    simp only [hstart, if_true, fullyQualifiedName, nameRun_separator hstart, hrun]
  | @name n x hstarts hrun =>
    cases n with
    | nil => cases hstarts
    | cons c n =>
      refine ⟨c, n ++ x, rfl, ?_⟩
      rw [List.cons_append] at hrun
      rw [Lexeme.ofCode, Lead.of_isLabelStart hstarts]
      simp only [Lexeme.name, hrun]
  | @number n x hstarts hreads =>
    cases hs : n ++ x with
    | nil =>
      rw [hs] at hstarts
      cases hstarts
    | cons c r =>
      have hnumber : Lexeme.number (c :: r) = ({ kind := .number, text := n }, x) := by
        rw [Lexeme.number, ← hs, hreads, List.drop_left]
      refine ⟨c, r, rfl, ?_⟩
      rw [hs, startsNumber, Bool.or_eq_true, Bool.and_eq_true, decide_eq_true_iff] at hstarts
      rcases hstarts with hdigit | ⟨rfl, hdigit⟩
      · rw [Lexeme.ofCode, Lead.of_isDigit hdigit]
        exact hnumber
      · rw [Lexeme.ofCode, show Lead.of '.' = .dot from rfl]
        simp only [hdigit, if_true]
        exact hnumber
  | @stray c x hlead =>
    refine ⟨c, x, rfl, ?_⟩
    rw [Lexeme.ofCode, hlead]

theorem startsLabel_nameRun {s : Text} (h : s.startsLabel = true) :
    (nameRun s).1.startsLabel = true := by
  rwa [Text.startsLabel_eq_any, head?_nameRun (Text.continuesName_of_startsLabel h),
    ← Text.startsLabel_eq_any]

theorem stands_name {c : Char} {r : Text} (h : isLabelStart c = true) :
    Stands afterAccess (name afterAccess (c :: r)).1 (name afterAccess (c :: r)).2 := by
  have hname : name afterAccess (c :: r) =
      ({ kind := nameKind afterAccess (nameRun (c :: r)).1, text := (nameRun (c :: r)).1 },
        (nameRun (c :: r)).2) := rfl
  rw [hname]
  refine .name (startsLabel_nameRun h) ?_
  rw [nameRun_append]

theorem stands_lineComment {c : Char} {r : Text}
    (h : c = '/' ∧ r.head? = some '/' ∨ c = '#' ∧ r.head? ≠ some '[') :
    Stands afterAccess (lineComment (c :: r)).1 (lineComment (c :: r)).2 := by
  have happend := Text.breakAt_append endsLineComment (c :: r)
  have hopens : opensLine (Text.breakAt endsLineComment (c :: r)).1 = true := by
    rcases h with ⟨rfl, hhead⟩ | ⟨rfl, hhead⟩
    · obtain ⟨t, rfl⟩ := List.head?_eq_some_iff.1 hhead
      simp [Text.breakAt_cons, endsLineComment, opensLine]
    · rw [Text.breakAt_cons, if_neg (by simp [endsLineComment])]
      rw [opensLine, decide_eq_true_iff]
      intro hbracket
      obtain ⟨t, ht⟩ := List.head?_eq_some_iff.1 hbracket
      have hrest := Text.breakAt_append endsLineComment r
      rw [ht] at hrest
      rw [← hrest] at hhead
      exact hhead rfl
  have hbreak : Text.breakAt endsLineComment ((Text.breakAt endsLineComment (c :: r)).1 ++
      (Text.breakAt endsLineComment (c :: r)).2) = Text.breakAt endsLineComment (c :: r) := by
    rw [happend]
  obtain ⟨hends, hline⟩ := break_lineComment_iff.1 hbreak
  exact .line hopens hline hends

theorem stands_blockComment (s : Text) :
    Stands afterAccess (blockComment s).1 (blockComment s).2 := by
  rcases blockBody_cases s with ⟨body, r, rfl, hclosed⟩ | hunclosed
  · rw [blockComment, blockBody_eq hclosed, isDocBody_append]
    exact .block hclosed
  · rw [blockComment, blockBody_eq_open hunclosed]
    exact .openBlock hunclosed

theorem stands_quoted {q : Char} (hquote : Enclosure.IsQuote q) (s : Text) :
    Stands afterAccess (quoted q s).1 (quoted q s).2 := by
  have happend := Enclosure.close_append [.quote q] s
  rw [quoted]
  cases hclose : Enclosure.close [.quote q] s with
  | mk body rest =>
    cases rest with
    | some x => exact .string hquote (Enclosure.close_left (Enclosure.isNested_quote hquote) hclose)
    | none =>
      rw [hclose, Option.getD_none, List.append_nil] at happend
      subst happend
      exact .openString hquote hclose

theorem stands_fullyQualifiedName {r : Text} (h : r.startsLabel = true) :
    Stands afterAccess (fullyQualifiedName (PhpImports.separator :: r)).1
      (fullyQualifiedName (PhpImports.separator :: r)).2 := by
  rw [fullyQualifiedName, nameRun_separator h]
  refine .fullyQualified (startsLabel_nameRun h) ?_
  rw [nameRun_append]

theorem stands_number {c : Char} {r : Text} (h : startsNumber (c :: r) = true) :
    Stands afterAccess (number (c :: r)).1 (number (c :: r)).2 := by
  have happend : numeral (c :: r) ++ (number (c :: r)).2 = c :: r :=
    List.prefix_iff_eq_append.1 (numeral_isPrefix _)
  exact .number (by rwa [happend]) (by rw [happend])

theorem stands_variableName {r : Text} (h : r.startsLabel = true) :
    Stands afterAccess (variableName r).1 (variableName r).2 := by
  refine .dollarName ?_ ?_ (Text.head?_dropWhile_any _ _)
  · cases r with
    | nil => cases h
    | cons c r =>
      have hc : isLabelStart c = true := h
      rw [List.takeWhile_cons, if_pos (isLabelChar_of_isLabelStart hc)]
      exact hc
  · exact List.all_eq_true.1 List.all_takeWhile

theorem stands_closeTag (t : Text) :
    Stands afterAccess (cut .closeTag (closeTagLength t) ('?' :: '>' :: t)).1
      (cut .closeTag (closeTagLength t) ('?' :: '>' :: t)).2 := by
  have hplain : closeTagLength t = 2 → Stands afterAccess
      { kind := .closeTag, text := '?' :: '>' :: [] } t := fun hlength => .closeTag hlength
  revert hplain
  rw [closeTagLength.eq_def]
  split
  · next t => exact fun _ => .closeTag (e := ['\n']) rfl
  · next t => exact fun _ => .closeTag (e := ['\r', '\n']) rfl
  · exact fun hplain => hplain rfl

/-- What is read in front of a text stands there. -/
theorem stands_ofCode (c : Char) (r : Text) :
    Stands afterAccess (Lexeme.ofCode afterAccess c r).1 (Lexeme.ofCode afterAccess c r).2 := by
  have hannounced := Lead.announced_of c
  have halone : standsAlone c r = true → Stands afterAccess (cut .punct 1 (c :: r)).1
      (cut .punct 1 (c :: r)).2 := .operator
  rw [standsAlone] at halone
  cases hlead : Lead.of c with
    simp only [Lexeme.ofCode, hlead, Lead.Announced] at hannounced halone ⊢
  | blank =>
    refine .blanks ?_ ?_ (Text.head?_dropWhile_any _ _)
    · simp [hannounced]
    · exact List.all_eq_true.1 List.all_takeWhile
  | label => exact stands_name hannounced
  | digit => exact stands_number (by simp [startsNumber, hannounced])
  | stray => exact .stray hlead
  | mark kind => exact .mark hlead
  | operator => exact halone trivial
  | quote => exact stands_quoted (Enclosure.isQuote_iff.2 hlead) r
  | slash =>
    obtain rfl : c = '/' := by simpa [Lead.symbols] using hannounced
    split
    · next hline => exact stands_lineComment (Or.inl ⟨rfl, hline⟩)
    · next hline =>
      split
      · exact stands_blockComment _
      · next hblock => exact halone (by simp [hline, hblock])
  | hash =>
    obtain rfl : c = '#' := by simpa [Lead.symbols] using hannounced
    split
    · next hbracket =>
      obtain ⟨t, rfl⟩ := List.head?_eq_some_iff.1 hbracket
      exact .longMark (by simp [longMarks])
    · next hbracket => exact stands_lineComment (Or.inr ⟨rfl, hbracket⟩)
  | question =>
    obtain rfl : c = '?' := by simpa [Lead.symbols] using hannounced
    split
    · next hclose =>
      obtain ⟨t, rfl⟩ := List.head?_eq_some_iff.1 hclose
      exact stands_closeTag t
    · next hclose =>
      split
      · next harrow =>
        obtain ⟨t, rfl⟩ := Text.startsWith_iff.1 harrow
        exact .longMark (by simp [longMarks])
      · next harrow =>
        rw [Bool.eq_false_iff.2 harrow] at halone
        exact halone (by simp [hclose])
  | minus =>
    obtain rfl : c = '-' := by simpa [Lead.symbols] using hannounced
    split
    · next harrow =>
      obtain ⟨t, rfl⟩ := List.head?_eq_some_iff.1 harrow
      exact .longMark (by simp [longMarks])
    · next harrow => exact halone (by simp [harrow])
  | colon =>
    obtain rfl : c = ':' := by simpa [Lead.symbols] using hannounced
    split
    · next hcolon =>
      obtain ⟨t, rfl⟩ := List.head?_eq_some_iff.1 hcolon
      exact .longMark (by simp [longMarks])
    · next hcolon => exact halone (by simp [hcolon])
  | dollar =>
    obtain rfl : c = '$' := by simpa [Lead.symbols] using hannounced
    split
    · next hlabel => exact stands_variableName hlabel
    · next hlabel => exact halone (by simp [hlabel])
  | less =>
    obtain rfl : c = '<' := by simpa [Lead.symbols] using hannounced
    split
    · next x hx =>
      split at hx
      · exact .heredoc hx
      · cases hx
    · next hnone =>
      split at hnone
      · next hstart => exact halone (by simp [hnone])
      · next hstart =>
        rw [Bool.eq_false_iff.2 hstart] at halone
        exact halone rfl
  | separator =>
    obtain rfl : c = PhpImports.separator := by
      simpa [Lead.symbols, PhpImports.separator] using hannounced
    split
    · next hlabel => exact stands_fullyQualifiedName hlabel
    · next hlabel => exact .separator (Bool.eq_false_iff.2 hlabel)
  | dot =>
    obtain rfl : c = '.' := by simpa [Lead.symbols] using hannounced
    split
    · next hdigit => exact stands_number (by simp [startsNumber, hdigit])
    · next hdigit => exact halone (by simp [hdigit])

/-- A lexeme is read in front of a text exactly if it stands there. -/
theorem ofCode_iff {c : Char} {r : Text} {l : Lexeme} {x : Text} :
    Lexeme.ofCode afterAccess c r = (l, x) ↔ l.text ++ x = c :: r ∧ Stands afterAccess l x := by
  constructor
  · intro hread
    have hsplit := (ofCode_splits afterAccess c r).1
    have hstands := @stands_ofCode afterAccess c r
    rw [hread] at hsplit hstands
    exact ⟨hsplit, hstands⟩
  · rintro ⟨happend, hstands⟩
    obtain ⟨d, t, hsplit, hread⟩ := hstands.ofCode
    obtain ⟨rfl, rfl⟩ := List.cons.inj (happend.symm.trans hsplit)
    exact hread

end Lexeme
end PhpImports
