import PhpImports.Proofs.Cursor.Comment
import PhpImports.Proofs.Cursor.Number
import PhpImports.Proofs.Lexeme.Enclosure
import PhpImports.Proofs.Lexeme.LookAhead
import PhpImports.Proofs.Lexeme.Naming
import PhpImports.Proofs.Text.Skeleton

/-!
# Lexing without encodings

No lexeme ends inside of a run of foreign characters, and what a lexeme is does not depend on how
such a run is encoded, nor does any look ahead. So the lexemes of a skeleton are the skeletons of
the lexemes (`InRow.skeleton`), but for heredocs, where a label has to come back as it was.
-/

namespace PhpImports

open Cursor (IsAscii AsciiClass)
open Text (skeleton Apart)

namespace Lexeme

/-- The lexeme with the skeleton of its text. -/
def skeleton (l : Lexeme) : Lexeme :=
  { l with text := l.text.skeleton }

variable {s x a body n : Text} {c q : Char} {afterAccess shortTags : Bool} {l : Lexeme}

theorem isLabelStart_of_isForeign (h : isForeign c = true) : isLabelStart c = true := by
  have hhigh : 128 ≤ c.toNat := of_decide_eq_true h
  simp [isLabelStart, hhigh]

theorem isLabelChar_of_isForeign (h : isForeign c = true) : isLabelChar c = true :=
  isLabelChar_of_isLabelStart (isLabelStart_of_isForeign h)

theorem blind_isLabelStart : Blind isLabelStart :=
  blind_of_forall fun _ => isLabelStart_of_isForeign

theorem blind_isLabelChar : Blind isLabelChar :=
  blind_of_forall fun _ => isLabelChar_of_isForeign

/-- Foreign characters start labels and nothing else. -/
theorem isForeign_of_lead (h : Lead.of c ≠ .label) : isForeign c = false := by
  rw [Bool.eq_false_iff]
  exact fun hc => h (Lead.of_isLabelStart (isLabelStart_of_isForeign hc))

theorem apart_of_isAscii (ha : IsAscii a) : Apart a x := by
  intro hlast
  obtain ⟨c, hc, hforeign⟩ := (Option.any_eq_true _ _).1 hlast
  rw [isForeign_eq_false_iff.2 (ha c (List.mem_of_getLast? hc))] at hforeign
  cases hforeign

theorem apart_of_label (hx : x.head?.any isLabelChar = false) : Apart a x := by
  intro _
  cases x with
  | nil => rfl
  | cons c x =>
    refine Bool.eq_false_iff.2 fun hc => ?_
    rw [show (c :: x).head?.any isLabelChar = isLabelChar c from rfl,
      isLabelChar_of_isForeign hc] at hx
    cases hx

theorem startsLabel_skeleton (s : Text) : s.skeleton.startsLabel = s.startsLabel := by
  rw [Text.startsLabel_eq_any, Text.startsLabel_eq_any, Text.any_head?_skeleton blind_isLabelStart]

theorem continuesName_skeleton (s : Text) : s.skeleton.continuesName = s.continuesName := by
  cases s with
  | nil => rfl
  | cons c r =>
    cases hc : isForeign c with
    | false =>
      rw [Text.skeleton_ascii hc, Text.continuesName, Text.continuesName, startsLabel_skeleton]
    | true =>
      have hname := Text.continuesName_of_startsLabel (s := c :: r) (isLabelStart_of_isForeign hc)
      rw [hname]
      apply Text.continuesName_of_startsLabel
      rw [startsLabel_skeleton]
      exact isLabelStart_of_isForeign hc

/-- A name in front of what it does not go on with. -/
theorem nameRun_skeleton (hrun : nameRun (n ++ x) = (n, x)) :
    Apart n x ∧ nameRun (n.skeleton ++ x.skeleton) = (n.skeleton, x.skeleton) := by
  have hapart : Apart n x := apart_of_label (ends_of_nameRun hrun).1
  exact ⟨hapart, Text.breakAt_skeleton (fun s => by rw [continuesName_skeleton]) hapart hrun⟩

theorem kind?_skeleton (n : Text) : Keyword.kind? n.skeleton = Keyword.kind? n := by
  apply Option.ext
  intro kind
  rw [Keyword.kind?_eq_some_iff, Keyword.kind?_eq_some_iff]
  constructor
  · intro hmem
    rwa [(Text.toLower_skeleton_iff (Keyword.isAscii_of_mem_table _ hmem).1).1 rfl]
  · intro hmem
    rwa [(Text.toLower_skeleton_iff (Keyword.isAscii_of_mem_table _ hmem).1).2 rfl]

theorem nameKind_skeleton (afterAccess : Bool) (n : Text) :
    nameKind afterAccess n.skeleton = nameKind afterAccess n := by
  have hseparator : n.skeleton.contains separator = n.contains separator := by
    rw [Bool.eq_iff_iff, List.contains_iff_mem, List.contains_iff_mem,
      Text.mem_skeleton_iff (by decide)]
  have hplain : Blind fun c => decide (c ≠ separator) :=
    blind_of_forall fun _ hc => decide_eq_true (ne_of_isForeign hc)
  have hfirst : Text.toLower (n.skeleton.takeWhile (· ≠ separator)) = "namespace".toList ↔
      Text.toLower (n.takeWhile (· ≠ separator)) = "namespace".toList := by
    rw [(Text.takeWhile_skeleton hplain n).1, Text.toLower_skeleton_iff (by decide)]
  rw [nameKind, nameKind, hseparator, kind?_skeleton]
  simp only [hfirst]

theorem asciiClass_isNumeralChar : AsciiClass isNumeralChar := by
  intro c hc
  simp only [isNumeralChar, Bool.or_eq_true, decide_eq_true_iff] at hc
  rcases hc with ((hc | rfl) | rfl) | rfl
  · exact Cursor.asciiClass_isRadixDigit c hc
  · decide
  · decide
  · decide

theorem numeralAlike_skeleton (s : Text) : NumeralAlike s s.skeleton := by
  have hblind := blind_of_asciiClass asciiClass_isNumeralChar
  have hpunctuation := blind_of_asciiClass Cursor.asciiClass_isAsciiPunctuation
  induction s with
  | nil => exact .stop rfl rfl rfl
  | cons c r ih =>
    cases hc : isNumeralChar c with
    | true =>
      rw [Text.skeleton_ascii (isForeign_eq_false_iff.2 (asciiClass_isNumeralChar c hc))]
      exact .cons hc ih
    | false =>
      refine .stop hc ?_ (Text.any_head?_skeleton hpunctuation _).symm
      rw [Text.any_head?_skeleton hblind]
      exact hc

theorem endsLineComment_skeleton (s : Text) : endsLineComment s.skeleton = endsLineComment s := by
  refine Text.congr_skeleton ?_ ?_ s
  · intro c r hc
    simp [endsLineComment, ne_of_isForeign hc (k := '\n'), ne_of_isForeign hc (k := '\r'),
      ne_of_isForeign hc (k := '?')]
  · intro c r _
    simp only [endsLineComment, Text.head?_skeleton_iff (c := '>') (by decide) r]

theorem isDocBody_skeleton (s : Text) : isDocBody s.skeleton = isDocBody s := by
  have hblank := blind_of_asciiClass Cursor.asciiClass_isBlank
  refine Text.congr_skeleton ?_ ?_ s
  · intro c r hc
    rw [isDocBody_cons, decide_eq_false (ne_of_isForeign hc)]
    rfl
  · intro c r _
    rw [isDocBody_cons, isDocBody_cons, Text.any_head?_skeleton hblank]

theorem blockKind_skeleton (body : Text) : blockKind body.skeleton = blockKind body := by
  rw [blockKind, blockKind, isDocBody_skeleton]

theorem opensLine_cons (c : Char) (r : Text) : opensLine (c :: r) =
    (decide (c = '/') && decide (r.head? = some '/') ||
      decide (c = '#') && decide (r.head? ≠ some '[')) := by
  rw [opensLine.eq_def]
  split
  · next hs =>
    obtain ⟨rfl, rfl⟩ := List.cons.inj hs
    rfl
  · next hs =>
    obtain ⟨rfl, rfl⟩ := List.cons.inj hs
    rfl
  · next hslash hhash =>
    have hmark : c ≠ '#' := fun hc => hhash r (by rw [hc])
    have hline : ¬ (c = '/' ∧ r.head? = some '/') := by
      rintro ⟨rfl, hr⟩
      obtain ⟨t, rfl⟩ := List.head?_eq_some_iff.1 hr
      exact hslash t rfl
    simpa [hmark] using hline

theorem opensLine_skeleton (s : Text) : opensLine s.skeleton = opensLine s := by
  refine Text.congr_skeleton ?_ ?_ s
  · intro c r hc
    rw [opensLine_cons, decide_eq_false (ne_of_isForeign hc), decide_eq_false (ne_of_isForeign hc)]
    rfl
  · intro c r _
    simp only [opensLine_cons, Text.head?_skeleton_iff (c := '/') (by decide) r, ne_eq,
      Text.head?_skeleton_iff (c := '[') (by decide) r]

theorem closeTagLength_skeleton (s : Text) : closeTagLength s.skeleton = closeTagLength s := by
  refine Text.congr_skeleton ?_ ?_ s
  · intro c r hc
    rw [closeTagLength_cons (ne_of_isForeign hc), if_neg (ne_of_isForeign hc)]
    rfl
  · intro c r _
    by_cases hcr : c = '\r'
    · subst hcr
      have hlf := Text.head?_skeleton_iff (c := '\n') (by decide) r
      have hcrlf : ∀ t : Text, closeTagLength ('\r' :: t) =
          if t.head? = some '\n' then 4 else 2 := by
        intro t
        rw [closeTagLength.eq_def]
        split
        · next hs => cases hs
        · next hs =>
          obtain ⟨-, rfl⟩ := List.cons.inj hs
          rfl
        · next _ hs =>
          rw [if_neg]
          intro ht
          obtain ⟨t, rfl⟩ := List.head?_eq_some_iff.1 ht
          exact hs t rfl
      rw [hcrlf, hcrlf]
      simp only [hlf]
    · rw [closeTagLength_cons hcr, closeTagLength_cons hcr]

theorem standsAlone_skeleton (hless : c ≠ '<') (x : Text) :
    standsAlone c x.skeleton = standsAlone c x := by
  have hannounced := Lead.announced_of c
  rw [standsAlone, standsAlone]
  cases hlead : Lead.of c with
  | slash | question | minus | colon =>
    simp only [ne_eq, Text.head?_skeleton_iff (c := '/') (by decide),
      Text.head?_skeleton_iff (c := '*') (by decide),
      Text.head?_skeleton_iff (c := '>') (by decide),
      Text.head?_skeleton_iff (c := ':') (by decide),
      Text.startsWith_skeleton (w := "->".toList) (by decide)]
  | dollar => simp only [startsLabel_skeleton]
  | dot => simp only [Text.any_head?_skeleton (blind_of_asciiClass Cursor.asciiClass_isDigit)]
  | less =>
    rw [hlead] at hannounced
    exact absurd (by simpa [Lead.Announced, Lead.symbols] using hannounced) hless
  | _ => rfl

namespace Enclosure

/-- A foreign character opens nothing and closes nothing, and behind an escape it is as hidden as
the rest of its run. -/
theorem next_foreign {e : Enclosure} {outer : List Enclosure} (hnested : IsNested (e :: outer))
    (hc : isForeign c = true) (r : Text) : next c r (e :: outer) ≠ [] ∧
      ∀ d r', isForeign d = true → next d r' (e :: outer) = next c r (e :: outer) ∧
        next d r' (next c r (e :: outer)) = next c r (e :: outer) := by
  have hstays : ∀ q (outer : List Enclosure), IsQuote q → ∀ c, isForeign c = true → ∀ r,
      next c r (.quote q :: outer) = .quote q :: outer := by
    intro q outer hq c hc r
    have hne : c ≠ q := by
      rcases hq with rfl | rfl | rfl <;> exact ne_of_isForeign hc
    rw [next, if_neg (ne_of_isForeign hc), if_neg fun h => absurd h.1 (ne_of_isForeign hc),
      if_neg hne]
  have hblock : ∀ c, isForeign c = true → ∀ r (outer : List Enclosure),
      next c r (.block :: outer) = .block :: outer := by
    intro c hc r outer
    rw [next, if_neg (ne_of_isForeign hc), if_neg (ne_of_isForeign hc), if_neg]
    rintro (h | h) <;> exact absurd h (ne_of_isForeign hc)
  cases e with
  | escape =>
    obtain ⟨⟨q, rest, rfl⟩, hq, -⟩ := hnested
    have hpop : ∀ c r, next c r (.escape :: .quote q :: rest) = .quote q :: rest := fun _ _ => rfl
    refine ⟨by rw [hpop]; exact List.cons_ne_nil _ _, fun d r' hd => ⟨rfl, ?_⟩⟩
    rw [hpop, hstays q rest hq d hd]
  | quote q =>
    rw [hstays q outer hnested.1 c hc]
    refine ⟨List.cons_ne_nil _ _, fun d r' hd => ?_⟩
    rw [hstays q outer hnested.1 d hd]
    exact ⟨rfl, rfl⟩
  | block =>
    rw [hblock c hc]
    refine ⟨List.cons_ne_nil _ _, fun d r' hd => ?_⟩
    rw [hblock d hd]
    exact ⟨rfl, rfl⟩

theorem close_skeleton {opened : List Enclosure} (hnested : IsNested opened) (s : Text) :
    close opened s.skeleton =
      ((close opened s).1.skeleton, (close opened s).2.map (·.skeleton)) := by
  induction s generalizing opened with
  | nil => cases opened <;> rfl
  | cons c r ih =>
    cases opened with
    | nil =>
      rw [close_nil, close_nil]
      rfl
    | cons e outer =>
      have hrest := ih (hnested.next c r)
      rw [close_cons_cons]
      cases hc : isForeign c with
      | false =>
        have hdollar := Text.head?_skeleton_iff (c := '$') (by decide) r
        rw [Text.skeleton_ascii hc, close_cons_cons, next_congr hdollar, hrest,
          Text.skeleton_ascii hc]
      | true =>
        obtain ⟨hne, hsame⟩ := next_foreign hnested hc r
        obtain ⟨e', outer', hopened⟩ := List.exists_cons_of_ne_nil hne
        have hhead : (close (e' :: outer') r).1.head?.any isForeign = r.head?.any isForeign := by
          cases r with
          | nil => rfl
          | cons d r => rw [close_cons_cons]; rfl
        rw [hopened] at hrest hsame ⊢
        cases hr : r.head?.any isForeign with
        | false =>
          rw [Text.skeleton_last hc hr, close_cons_cons, (hsame standIn _ isForeign_standIn).1,
            hrest, Text.skeleton_last hc (hhead.trans hr)]
        | true =>
          have hrhead := Text.any_head?_skeleton blind_isForeign r
          cases hskeleton : Text.skeleton r with
          | nil =>
            rw [hskeleton, hr] at hrhead
            cases hrhead
          | cons d t =>
            rw [hskeleton, hr] at hrhead
            obtain ⟨hfirst, hagain⟩ := hsame d t hrhead
            rw [hskeleton, close_cons_cons, hagain] at hrest
            rw [Text.skeleton_inside hc hr, hskeleton, close_cons_cons, hfirst, hrest,
              Text.skeleton_inside hc (hhead.trans hr)]

end Enclosure

theorem isForeign_of_isQuote (h : Enclosure.IsQuote q) : isForeign q = false := by
  rcases h with rfl | rfl | rfl <;> decide

theorem Stands.of_isAscii {kind : TokenKind} {fault : Option Cause} (ha : IsAscii a)
    (h : Stands afterAccess ⟨kind, a, fault⟩ x.skeleton) :
    Apart a x ∧ Stands afterAccess (skeleton ⟨kind, a, fault⟩) x.skeleton := by
  refine ⟨apart_of_isAscii ha, ?_⟩
  rwa [Lexeme.skeleton, Text.skeleton_of_ascii ha]

theorem apart_of_endsLineComment (hends : x = [] ∨ endsLineComment x = true) : Apart a x := by
  intro _
  cases x with
  | nil => rfl
  | cons c x =>
    refine Bool.eq_false_iff.2 fun hc => ?_
    have hc' : isForeign c = true := hc
    simp [endsLineComment, ne_of_isForeign hc' (k := '\n'), ne_of_isForeign hc' (k := '\r'),
      ne_of_isForeign hc' (k := '?')] at hends

theorem skeleton_block (body : Text) : Text.skeleton (['/', '*'] ++ body ++ ['*', '/']) =
    ['/', '*'] ++ body.skeleton ++ ['*', '/'] := by
  rw [Text.skeleton_append fun _ => rfl, Text.skeleton_append_ascii (by decide)]
  rfl

theorem apart_block (body x : Text) : Apart (['/', '*'] ++ body ++ ['*', '/']) x := by
  intro hlast
  rw [List.getLast?_append_of_ne_nil _ (by simp)] at hlast
  cases hlast

/-- Without three of them in a row, a less-than sign stands alone. -/
theorem standsAlone_less (hplain : ¬ "<<<".toList <:+: '<' :: x) :
    standsAlone '<' x.skeleton = true := by
  have hstart : x.skeleton.startsWith "<<".toList = false := by
    rw [Text.startsWith_skeleton (by decide), Bool.eq_false_iff]
    intro hstart
    obtain ⟨r, rfl⟩ := Text.startsWith_iff.1 hstart
    exact hplain ⟨[], r, rfl⟩
  rw [standsAlone, show Lead.of '<' = .less from rfl]
  simp only [hstart]
  rfl

theorem skeleton_string (hquote : Enclosure.IsQuote q)
    (hclosed : Enclosure.close [.quote q] body = (body, some [])) : Apart (q :: body) x ∧
      Stands afterAccess (skeleton { kind := .stringLiteral, text := q :: body }) x.skeleton := by
  have hq := isForeign_of_isQuote hquote
  have hcloses := (Enclosure.close_iff hquote).1 hclosed
  refine ⟨?_, ?_⟩
  · intro hforeign
    rw [hcloses.getLast?_cons, Option.any_some, hq] at hforeign
    cases hforeign
  · rw [Lexeme.skeleton, Text.skeleton_ascii hq]
    refine .string hquote ?_
    rw [Enclosure.close_skeleton (Enclosure.isNested_quote hquote), hclosed]
    rfl

/-- No lexeme but a heredoc ends inside of a run, and its skeleton stands in front of the skeleton
of the text behind it. -/
theorem Stands.skeleton (h : Stands afterAccess l x) (hplain : ¬ "<<<".toList <:+: l.text ++ x) :
    Apart l.text x ∧ Stands afterAccess l.skeleton x.skeleton := by
  have hchar : ∀ {c : Char}, isForeign c = false → IsAscii [c] := by
    intro c hc k hk
    rw [List.mem_singleton.1 hk]
    exact isForeign_eq_false_iff.1 hc
  cases h with
  | @blanks w x hany hblank hends =>
    refine of_isAscii (fun c hc => Cursor.asciiClass_isBlank c (hblank c hc)) ?_
    refine .blanks hany hblank ?_
    rwa [Text.any_head?_skeleton (blind_of_asciiClass Cursor.asciiClass_isBlank)]
  | @line a x hopens hinLine hends =>
    refine ⟨apart_of_endsLineComment hends, .line ?_ ⟨?_, ?_, ?_⟩ ?_⟩
    · rwa [opensLine_skeleton]
    · rw [Text.mem_skeleton_iff (by decide)]
      exact hinLine.1
    · rw [Text.mem_skeleton_iff (by decide)]
      exact hinLine.2.1
    · rw [Text.isInfix_skeleton_iff (by decide)]
      exact hinLine.2.2
    · rwa [Text.skeleton_eq_nil, endsLineComment_skeleton]
  | @block body x hclosed =>
    refine ⟨apart_block body x, ?_⟩
    rw [Lexeme.skeleton, skeleton_block, ← blockKind_skeleton]
    exact .block (by rwa [Text.isInfix_skeleton_iff (by decide)])
  | @openBlock body hunclosed =>
    refine ⟨fun _ => rfl, ?_⟩
    rw [Lexeme.skeleton, Text.skeleton_append_ascii (by decide), ← blockKind_skeleton]
    exact .openBlock (by rwa [Text.isInfix_skeleton_iff (by decide)])
  | @mark c kind x hlead =>
    exact of_isAscii (hchar (isForeign_of_lead (by rw [hlead]; simp))) (.mark hlead)
  | longMark hmem =>
    have hmarks : ∀ e ∈ longMarks, IsAscii e.1 := by decide
    exact of_isAscii (hmarks _ hmem) (.longMark hmem)
  | @closeTag e x hends =>
    have hascii : IsAscii e := by
      rcases lineEnding_of_closeTagLength hends with ⟨rfl, -⟩ | rfl | rfl <;> decide
    refine of_isAscii (.cons (by decide) (.cons (by decide) hascii)) (.closeTag ?_)
    rwa [← Text.skeleton_append_ascii hascii, closeTagLength_skeleton]
  | @operator c x halone =>
    have hc : isForeign c = false := by
      refine isForeign_of_lead fun hlead => ?_
      rw [standsAlone, hlead] at halone
      cases halone
    refine of_isAscii (hchar hc) (.operator ?_)
    by_cases hless : c = '<'
    · subst hless
      exact standsAlone_less hplain
    · rwa [standsAlone_skeleton hless]
  | @dollarName n x hstarts hlabel hends =>
    refine ⟨apart_of_label hends, ?_⟩
    rw [Lexeme.skeleton, Text.skeleton_ascii (by decide)]
    refine .dollarName ?_ (Text.forall_mem_skeleton blind_isLabelChar hlabel) ?_
    · rwa [startsLabel_skeleton]
    · rwa [Text.any_head?_skeleton blind_isLabelChar]
  | string hquote hclosed => exact skeleton_string hquote hclosed
  | @openString q body hquote hunclosed =>
    refine ⟨fun _ => rfl, ?_⟩
    rw [Lexeme.skeleton, Text.skeleton_ascii (isForeign_of_isQuote hquote)]
    refine .openString hquote ?_
    rw [Enclosure.close_skeleton (Enclosure.isNested_quote hquote), hunclosed]
    rfl
  | heredoc hreads =>
    have hsplit := (heredoc?_splits hreads).1
    simp only at hsplit
    rw [hsplit] at hplain
    exact absurd (List.infix_append' [] _ _) hplain
  | separator hends =>
    refine of_isAscii (hchar (by decide)) (.separator ?_)
    rwa [startsLabel_skeleton]
  | @fullyQualified n x hstarts hrun =>
    obtain ⟨hapart, hrun'⟩ := nameRun_skeleton hrun
    refine ⟨?_, ?_⟩
    · obtain ⟨c, n, rfl⟩ := List.exists_cons_of_ne_nil (l := n) (by rintro rfl; cases hstarts)
      rwa [Apart, List.getLast?_cons_cons]
    · rw [Lexeme.skeleton, Text.skeleton_ascii (by decide)]
      exact .fullyQualified (by rwa [startsLabel_skeleton]) hrun'
  | @name n x hstarts hrun =>
    obtain ⟨hapart, hrun'⟩ := nameRun_skeleton hrun
    refine ⟨hapart, ?_⟩
    rw [Lexeme.skeleton, ← nameKind_skeleton]
    exact .name (by rwa [startsLabel_skeleton]) hrun'
  | @number n x hstarts hreads =>
    have hascii : IsAscii n := by
      rw [← hreads]
      exact fun c hc => asciiClass_isNumeralChar c (all_numeral _ c hc)
    have hall := numeralAlike_skeleton (n ++ x)
    rw [Text.skeleton_append_ascii hascii] at hall
    exact of_isAscii hascii (.number (hall.startsNumber.symm.trans hstarts)
      (hall.numeral.symm.trans hreads))
  | @stray c x hlead =>
    exact of_isAscii (hchar (isForeign_of_lead (by rw [hlead]; simp))) (.stray hlead)

theorem opensLongTag_skeleton (s : Text) : opensLongTag s.skeleton = opensLongTag s := by
  have hblank := blind_of_asciiClass Cursor.asciiClass_isBlank
  rw [Bool.eq_iff_iff, opensLongTag_iff, opensLongTag_iff]
  constructor
  · rintro ⟨w, r, hs, hword, hends⟩
    have hascii : IsAscii w := Cursor.isAscii_of_toLower (by rw [hword]; decide)
    obtain ⟨s', rfl, rfl⟩ := Text.exists_of_skeleton_eq_append hascii hs
    exact ⟨w, s', rfl, hword, by rwa [Text.all_head?_skeleton hblank] at hends⟩
  · rintro ⟨w, r, rfl, hword, hends⟩
    have hascii : IsAscii w := Cursor.isAscii_of_toLower (by rw [hword]; decide)
    exact ⟨w, r.skeleton, Text.skeleton_append_ascii hascii r, hword,
      by rwa [Text.all_head?_skeleton hblank]⟩

theorem isSome_openTag?_skeleton (s : Text) :
    (openTag? shortTags s.skeleton).isSome = (openTag? shortTags s).isSome := by
  rw [isSome_openTag?, isSome_openTag?, Text.startsWith_skeleton (by decide)]
  cases hmark : s.startsWith "<?".toList with
  | false => rfl
  | true =>
    obtain ⟨r, rfl⟩ := Text.startsWith_iff.1 hmark
    rw [Text.skeleton_append_ascii (by decide), show 2 = "<?".toList.length from rfl,
      List.drop_left, List.drop_left, opensLongTag_skeleton]
    simp only [Text.head?_skeleton_iff (c := '=') (by decide) r]

theorem StandsOutside.of_isAscii {kind : TokenKind} {fault : Option Cause} (ha : IsAscii a)
    (h : StandsOutside shortTags ⟨kind, a, fault⟩ x.skeleton) :
    Apart a x ∧ StandsOutside shortTags (skeleton ⟨kind, a, fault⟩) x.skeleton := by
  refine ⟨apart_of_isAscii ha, ?_⟩
  rwa [Lexeme.skeleton, Text.skeleton_of_ascii ha]

/-- The same outside code. -/
theorem StandsOutside.skeleton (h : StandsOutside shortTags l x) :
    Apart l.text x ∧ StandsOutside shortTags l.skeleton x.skeleton := by
  have hascii : ∀ {w : Text}, Text.toLower w = "php".toList → IsAscii ('<' :: '?' :: w) := by
    intro w hword
    exact .cons (by decide) (.cons (by decide)
      (Cursor.isAscii_of_toLower (by rw [hword]; decide)))
  cases h with
  | echoTag => exact of_isAscii (by decide) .echoTag
  | lastTag hword => exact of_isAscii (x := []) (hascii hword) (.lastTag hword)
  | @longTag w e x hword hends =>
    have hends' : IsAscii e ∧ (e = ['\r', '\n'] ∨
        ∃ c, e = [c] ∧ isBlank c = true ∧ (c = '\r' → x.skeleton.head? ≠ some '\n')) := by
      rcases hends with rfl | ⟨c, rfl, hblank, hcrlf⟩
      · exact ⟨by decide, Or.inl rfl⟩
      · refine ⟨?_, Or.inr ⟨c, rfl, hblank, ?_⟩⟩
        · intro k hk
          rw [List.mem_singleton.1 hk]
          exact Cursor.asciiClass_isBlank c hblank
        · intro hc
          rw [ne_eq, Text.head?_skeleton_iff (by decide)]
          exact hcrlf hc
    refine of_isAscii ?_ (.longTag hword hends'.2)
    intro k hk
    rcases List.mem_append.1 (show k ∈ ('<' :: '?' :: w) ++ e from hk) with hk | hk
    · exact hascii hword k hk
    · exact hends'.1 k hk
  | shortTag hon hother hshort =>
    refine of_isAscii (by decide) (.shortTag hon ?_ ?_)
    · rwa [ne_eq, Text.head?_skeleton_iff (by decide)]
    · rwa [opensLongTag_skeleton]
  | @text t x hany hends =>
    have hapart : Apart t x := by
      intro _
      rcases (Text.breakAt_eq_iff.1 hends).1 with rfl | hopens
      · rfl
      · rw [isSome_openTag?, Bool.and_eq_true] at hopens
        obtain ⟨r, rfl⟩ := Text.startsWith_iff.1 hopens.1
        rfl
    exact ⟨hapart, .text (mt Text.skeleton_eq_nil.1 hany)
      (Text.breakAt_skeleton isSome_openTag?_skeleton hapart hends)⟩

/-- The skeletons of lexemes in a row are in a row, and they make up the skeleton of the text. -/
theorem InRow.skeleton {m : Mode} {ls : List Lexeme} (h : InRow shortTags m ls)
    (hplain : ¬ "<<<".toList <:+: texts ls) : InRow shortTags m (ls.map (·.skeleton)) ∧
      texts (ls.map (·.skeleton)) = (texts ls).skeleton := by
  induction h with
  | nil => exact ⟨.nil, rfl⟩
  | @cons m l ls hfirst _ ih =>
    rw [texts_cons] at hplain
    have hrest : ¬ "<<<".toList <:+: texts ls := fun hmark =>
      hplain (hmark.trans (List.suffix_append _ _).isInfix)
    obtain ⟨hrow, htexts⟩ := ih hrest
    obtain ⟨hapart, hstands⟩ : Apart l.text (texts ls) ∧
        m.Stands shortTags l.skeleton (texts ls).skeleton := by
      cases m with
      | html => exact StandsOutside.skeleton hfirst
      | code afterAccess => exact Stands.skeleton hfirst hplain
    rw [List.map_cons, texts_cons, texts_cons, htexts, Text.skeleton_append hapart]
    refine ⟨.cons ?_ hrow, rfl⟩
    rwa [htexts]

theorem lexemes_skeleton {t : Text} (hplain : ¬ "<<<".toList <:+: t) :
    t.skeleton.lexemes shortTags = (t.lexemes shortTags).map (·.skeleton) := by
  have htexts := texts_lexemes shortTags t
  obtain ⟨hrow, hskeleton⟩ := (inRow_lexemes shortTags t).skeleton (by rwa [htexts])
  rw [htexts] at hskeleton
  exact readAll_eq_iff.2 ⟨hskeleton, hrow⟩

end Lexeme
end PhpImports
