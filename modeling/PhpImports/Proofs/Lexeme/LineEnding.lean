import PhpImports.Proofs.Lexeme.Enclosure
import PhpImports.Proofs.Lexeme.Heredoc
import PhpImports.Proofs.Lexeme.LookAhead

/-!
# Unifying line endings lexeme by lexeme

In a text without a lone CR no lexeme ends between CR and LF, and the lexemes of the unified text
are those of the text, unified one by one (`InRow.unify`). For most lexemes that is so because they
hold no CR and look no further than to what line endings hide.
-/

namespace PhpImports

open Text (LookAlike WholeEndings unifyLineEndings)

namespace Lexeme

/-- The lexeme with its line endings unified. -/
def unify (l : Lexeme) : Lexeme :=
  { l with text := unifyLineEndings l.text }

theorem unify_of_notMem {l : Lexeme} (h : '\r' ∉ l.text) : l.unify = l := by
  rw [unify, Text.unifyLineEndings_of_notMem h]

namespace Enclosure

/-- A line ending opens nothing and closes nothing, and an escape takes no more than its CR. -/
theorem next_crlf {e : Enclosure} {outer : List Enclosure} (h : IsNested (e :: outer))
    (r r' : Text) : next '\r' ('\n' :: r) (e :: outer) ≠ [] ∧
      next '\n' r (next '\r' ('\n' :: r) (e :: outer)) = next '\n' r' (e :: outer) := by
  have hquote : ∀ q, IsQuote q → q ≠ '\r' ∧ q ≠ '\n' := by
    rintro q (rfl | rfl | rfl) <;> decide
  have hstays : ∀ q (outer : List Enclosure), IsQuote q → ∀ c, c = '\r' ∨ c = '\n' → ∀ r,
      next c r (.quote q :: outer) = .quote q :: outer := by
    rintro q outer hq c hc r
    obtain ⟨hcr, hlf⟩ := hquote q hq
    rcases hc with rfl | rfl <;> simp [next, hcr.symm, hlf.symm]
  cases e with
  | escape =>
    obtain ⟨⟨q, rest, rfl⟩, hq, -⟩ := h
    have hpop : ∀ c r, next c r (.escape :: .quote q :: rest) = .quote q :: rest := fun _ _ => rfl
    rw [hpop, hpop, hstays q rest hq _ (Or.inr rfl)]
    exact ⟨by simp, rfl⟩
  | quote q =>
    rw [hstays q outer h.1 _ (Or.inl rfl), hstays q outer h.1 _ (Or.inr rfl),
      hstays q outer h.1 _ (Or.inr rfl)]
    exact ⟨by simp, rfl⟩
  | block => exact ⟨by simp [next], rfl⟩

theorem close_unify {opened : List Enclosure} (hnested : IsNested opened) {s : Text}
    (h : WholeEndings s) : close opened (unifyLineEndings s) =
      (unifyLineEndings (close opened s).1, (close opened s).2.map unifyLineEndings) := by
  induction h generalizing opened with
  | nil => cases opened <;> rfl
  | @crlf s _ ih =>
    cases opened with
    | nil =>
      rw [close_nil, close_nil]
      rfl
    | cons e outer =>
      obtain ⟨hne, hnext⟩ := next_crlf hnested s (unifyLineEndings s)
      have hnested' := (hnested.next '\r' ('\n' :: s)).next '\n' s
      rw [Text.unifyLineEndings_crlf, close_cons_cons, close_cons_cons]
      cases hopened : next '\r' ('\n' :: s) (e :: outer) with
      | nil => exact absurd hopened hne
      | cons e' outer' =>
        rw [hopened] at hnext hnested'
        rw [close_cons_cons, ← hnext, ih hnested', Text.unifyLineEndings_crlf]
  | @char c s hc _ ih =>
    cases opened with
    | nil =>
      rw [close_nil, close_nil]
      rfl
    | cons e outer =>
      have hdollar : (unifyLineEndings s).head? = some '$' ↔ s.head? = some '$' :=
        ((Text.lookAlike_unify s).head?_eq_iff (by decide)).symm
      rw [Text.unifyLineEndings_char hc, close_cons_cons, close_cons_cons, next_congr hdollar,
        ih (hnested.next c s), Text.unifyLineEndings_char hc]

end Enclosure

variable {afterAccess : Bool} {l : Lexeme} {x : Text}

theorem notMem_cr_of_clear {s : Text} (h : ∀ c ∈ s, c ∉ covers) : '\r' ∉ s :=
  fun hm => h '\r' hm (by decide)

theorem endsLineComment_unify (h : endsLineComment x = true) :
    endsLineComment (unifyLineEndings x) = true := by
  cases x with
  | nil => cases h
  | cons c x =>
    by_cases hc : c = '\r'
    · subst hc
      obtain ⟨r, hr⟩ := Text.exists_unifyLineEndings_cr x
      rw [hr]
      rfl
    · have hmark := (Text.lookAlike_unify x).head?_eq_iff (k := '>') (by decide)
      rw [Text.unifyLineEndings_char hc]
      simpa only [endsLineComment, hmark] using h

theorem closeTagLength_unify (hw : WholeEndings x) (h : closeTagLength x = 2) :
    closeTagLength (unifyLineEndings x) = 2 := by
  cases hw with
  | nil => rfl
  | crlf _ => cases h
  | char hc _ =>
    rw [closeTagLength_cons hc] at h
    rw [Text.unifyLineEndings_char hc, closeTagLength_cons hc, h]

theorem standsAlone_less_unify (hw : WholeEndings x) (h : standsAlone '<' x = true) :
    standsAlone '<' (unifyLineEndings x) = true := by
  simp only [standsAlone, show Lead.of '<' = .less from rfl] at h ⊢
  rw [← (Text.lookAlike_unify x).startsWith (by decide)]
  cases hstart : x.startsWith "<<".toList with
  | false => rfl
  | true =>
    obtain ⟨r, rfl⟩ := Text.startsWith_iff.1 hstart
    rw [hstart] at h
    rw [Text.unifyLineEndings_append_of_notMem (by decide)]
    have hnone : (heredoc? r).isNone = true := h
    have hnone' := (isNone_heredoc?_unify hw.right).trans hnone
    exact hnone'

/-- A heredoc, and what comes behind it, in the unified text. -/
theorem heredoc?_unify_eq {t : Text} (hw : WholeEndings (l.text ++ x)) (hl : WholeEndings l.text)
    (hreads : heredoc? t = some (l, x)) :
    heredoc? (unifyLineEndings t) = some (l.unify, unifyLineEndings x) := by
  have hsplit := (heredoc?_splits hreads).1
  simp only at hsplit
  have ht : WholeEndings t := by
    rw [hsplit] at hw
    exact hw.right
  obtain ⟨l', hreads', hkind, hfault⟩ := heredoc?_unify ht hreads
  have hsplit' := (heredoc?_splits hreads').1
  have htext : l'.text ++ unifyLineEndings x = unifyLineEndings l.text ++ unifyLineEndings x := by
    rw [← hl.unify_append, hsplit, Text.unifyLineEndings_append_of_notMem (by decide)]
    exact hsplit'
  have hl' : l' = l.unify := by
    obtain ⟨kind, text, fault⟩ := l'
    simp only at hkind hfault htext
    rw [hkind, hfault, List.append_cancel_right htext]
    rfl
  rw [hreads', hl']

/-- A lexeme without CR stands where it stood. -/
theorem Stands.unify_plain (h : Stands afterAccess l x) (hcr : '\r' ∉ l.text)
    (hw : WholeEndings (l.text ++ x)) :
    WholeEndings l.text ∧ Stands afterAccess l.unify (unifyLineEndings x) := by
  have hl : WholeEndings l.text := .of_notMem hcr
  refine ⟨hl, ?_⟩
  rw [unify_of_notMem hcr]
  refine h.lookAlike (Text.lookAlike_unify x) (fun _ _ => endsLineComment_unify)
    (fun _ => closeTagLength_unify hw.right) (fun _ => standsAlone_less_unify hw.right) ?_
  intro t hreads
  have hreads' := heredoc?_unify_eq hw hl hreads
  rw [unify_of_notMem hcr] at hreads'
  exact .heredoc hreads'

theorem unify_blanks {w : Text} (hany : w ≠ []) (hblank : ∀ c ∈ w, isBlank c = true)
    (hends : x.head?.any isBlank = false) (hw : WholeEndings (w ++ x)) :
    WholeEndings w ∧ Stands afterAccess { kind := .whitespace, text := unifyLineEndings w }
      (unifyLineEndings x) := by
  have hl : WholeEndings w := hw.left fun hlf => by
    rw [hlf] at hends
    cases hends
  refine ⟨hl, .blanks (mt Text.unifyLineEndings_eq_nil.1 hany) ?_ ?_⟩
  · exact fun c hc => hblank c (hl.mem_of_mem_unify hc)
  · rwa [← (Text.lookAlike_unify x).any_head? (by decide)]

theorem isDocBody_lookAlike {s t : Text} (h : LookAlike s t) : isDocBody s = isDocBody t := by
  cases h with
  | nil => rfl
  | cons c hrest => rw [isDocBody_cons, isDocBody_cons, hrest.any_head? (by decide)]
  | @cover c d s t hc hd _ =>
    have hnone : ∀ c ∈ covers, c ≠ '*' := by decide
    rw [isDocBody_cons, isDocBody_cons, decide_eq_false (hnone c hc), decide_eq_false (hnone d hd)]
    rfl

theorem blockKind_unify (body : Text) : blockKind (unifyLineEndings body) = blockKind body := by
  rw [blockKind, blockKind, isDocBody_lookAlike (Text.lookAlike_unify body)]

theorem unclosed_unify {body : Text} (h : ¬ ['*', '/'] <:+: body) :
    ¬ ['*', '/'] <:+: unifyLineEndings body :=
  fun hmark => h (Text.infix_of_infix_unifyLineEndings (by decide) (by decide) hmark)

theorem unify_block (body : Text) : unifyLineEndings (['/', '*'] ++ body ++ ['*', '/']) =
    ['/', '*'] ++ unifyLineEndings body ++ ['*', '/'] := by
  rw [Text.unifyLineEndings_append _ _ (by simp),
    Text.unifyLineEndings_append_of_notMem (by decide)]
  rfl

theorem ne_cr_of_isQuote {q : Char} (h : Enclosure.IsQuote q) : q ≠ '\r' := by
  rcases h with rfl | rfl | rfl <;> decide

theorem unify_string {q : Char} {body : Text} (hquote : Enclosure.IsQuote q)
    (hclosed : Enclosure.close [.quote q] body = (body, some []))
    (hw : WholeEndings (q :: body ++ x)) : WholeEndings (q :: body) ∧
      Stands afterAccess { kind := .stringLiteral, text := unifyLineEndings (q :: body) }
        (unifyLineEndings x) := by
  have hq := ne_cr_of_isQuote hquote
  have hl : WholeEndings (q :: body) := hw.left fun _ => by
    rw [((Enclosure.close_iff hquote).1 hclosed).getLast?_cons]
    exact fun hcr => hq (Option.some.inj hcr)
  refine ⟨hl, ?_⟩
  rw [Text.unifyLineEndings_char hq]
  refine .string hquote ?_
  rw [Enclosure.close_unify (Enclosure.isNested_quote hquote) hl.tail, hclosed]
  rfl

/-- A lexeme does not end between CR and LF, and unified it stands in front of the unified text. -/
theorem Stands.unify (h : Stands afterAccess l x) (hw : WholeEndings (l.text ++ x)) :
    WholeEndings l.text ∧ Stands afterAccess l.unify (unifyLineEndings x) := by
  cases h with
  | blanks hany hblank hends => exact unify_blanks hany hblank hends hw
  | line hopens hinLine hends => exact unify_plain (.line hopens hinLine hends) hinLine.2.1 hw
  | @block body x hclosed =>
    refine ⟨hw.left fun _ => ?_, ?_⟩
    · rw [List.getLast?_append_of_ne_nil _ (by simp)]
      decide
    · rw [Lexeme.unify, unify_block, ← blockKind_unify]
      exact .block (unclosed_unify hclosed)
  | @openBlock body hunclosed =>
    rw [List.append_nil] at hw
    refine ⟨hw, ?_⟩
    rw [Lexeme.unify, Text.unifyLineEndings_append_of_notMem (by decide), ← blockKind_unify]
    exact .openBlock (unclosed_unify hunclosed)
  | @mark c kind x hlead =>
    refine unify_plain (.mark hlead) ?_ hw
    intro hcr
    obtain rfl := List.mem_singleton.1 hcr
    cases hlead
  | longMark hmem =>
    have hmarks : ∀ e ∈ longMarks, '\r' ∉ e.1 := by decide
    exact unify_plain (.longMark hmem) (hmarks _ hmem) hw
  | closeTag hends =>
    rcases lineEnding_of_closeTagLength hends with ⟨rfl, -⟩ | rfl | rfl
    · exact unify_plain (.closeTag hends) (by decide) hw
    · exact unify_plain (.closeTag hends) (by decide) hw
    · exact ⟨.char (by decide) (.char (by decide) (.crlf .nil)), .closeTag (e := ['\n']) rfl⟩
  | operator halone =>
    refine unify_plain (.operator halone) ?_ hw
    intro hcr
    obtain rfl := List.mem_singleton.1 hcr
    cases halone
  | dollarName hstarts hlabel hends =>
    exact unify_plain (.dollarName hstarts hlabel hends) (List.not_mem_cons_of_ne_of_not_mem
      (by decide) fun hcr => by cases hlabel _ hcr) hw
  | string hquote hclosed => exact unify_string hquote hclosed hw
  | @openString q body hquote hunclosed =>
    rw [List.append_nil] at hw
    refine ⟨hw, ?_⟩
    rw [Lexeme.unify, Text.unifyLineEndings_char (ne_cr_of_isQuote hquote)]
    refine .openString hquote ?_
    rw [Enclosure.close_unify (Enclosure.isNested_quote hquote) hw.tail, hunclosed]
    rfl
  | heredoc hreads =>
    have hl : WholeEndings l.text := hw.left fun hlf => getLast?_heredoc? hreads fun hnil => by
      rw [hnil] at hlf
      cases hlf
    exact ⟨hl, .heredoc (heredoc?_unify_eq hw hl hreads)⟩
  | separator hends => exact unify_plain (.separator hends) (by decide) hw
  | fullyQualified hstarts hrun =>
    exact unify_plain (.fullyQualified hstarts hrun) (List.not_mem_cons_of_ne_of_not_mem (by decide)
      (notMem_cr_of_clear (clear_nameRun hrun))) hw
  | name hstarts hrun =>
    exact unify_plain (.name hstarts hrun) (notMem_cr_of_clear (clear_nameRun hrun)) hw
  | @number n x hstarts hreads =>
    refine unify_plain (.number hstarts hreads) ?_ hw
    rw [← hreads]
    exact notMem_cr_of_clear fun c hc => not_mem_covers_of_isNumeralChar (all_numeral _ c hc)
  | @stray c x hlead =>
    refine unify_plain (.stray hlead) ?_ hw
    intro hcr
    obtain rfl := List.mem_singleton.1 hcr
    cases hlead

variable {shortTags : Bool}

theorem isSome_openTag?_unify (s : Text) :
    (openTag? shortTags (unifyLineEndings s)).isSome = (openTag? shortTags s).isSome :=
  (isSome_openTag?_lookAlike (Text.lookAlike_unify s)).symm

theorem isSome_openTag?_of_ne {c : Char} (hc : c ≠ '<') (s : Text) :
    (openTag? shortTags (c :: s)).isSome = false := by
  rw [isSome_openTag?, show "<?".toList = ['<', '?'] from rfl, Text.cons_startsWith_cons,
    decide_eq_false hc]
  rfl

/-- Text outside code breaks in front of the same tag. -/
theorem break_openTag?_unify {t : Text} (hw : WholeEndings (t ++ x)) (hl : WholeEndings t)
    (hends : Text.breakAt (fun s => (openTag? shortTags s).isSome) (t ++ x) = (t, x)) :
    Text.breakAt (fun s => (openTag? shortTags s).isSome)
        (unifyLineEndings t ++ unifyLineEndings x) =
      (unifyLineEndings t, unifyLineEndings x) := by
  have hrest : (Text.breakAt (fun s => (openTag? shortTags s).isSome)
        (unifyLineEndings (t ++ x))).2 =
      unifyLineEndings (Text.breakAt (fun s => (openTag? shortTags s).isSome) (t ++ x)).2 :=
    hw.breakAt_unify isSome_openTag?_unify (isSome_openTag?_of_ne (by decide))
      (isSome_openTag?_of_ne (by decide))
  have happend := Text.breakAt_append (fun s => (openTag? shortTags s).isSome)
    (unifyLineEndings (t ++ x))
  rw [hends] at hrest
  rw [hrest, hl.unify_append] at happend
  rw [hl.unify_append] at hrest
  exact Prod.ext (List.append_cancel_right happend) hrest

theorem notMem_cr_of_word {w : Text} (hword : Text.toLower w = "php".toList) : '\r' ∉ w := by
  intro hcr
  have hlower : Char.toLower '\r' ∈ "php".toList := by
    rw [← hword]
    exact List.mem_map_of_mem hcr
  exact absurd hlower (by decide)

theorem StandsOutside.unify_plain (h : StandsOutside shortTags l x) (hcr : '\r' ∉ l.text) :
    WholeEndings l.text ∧ StandsOutside shortTags l.unify (unifyLineEndings x) := by
  rw [unify_of_notMem hcr]
  exact ⟨.of_notMem hcr, h.lookAlike (Text.lookAlike_unify x) hcr⟩

/-- The same outside code. -/
theorem StandsOutside.unify (h : StandsOutside shortTags l x) (hw : WholeEndings (l.text ++ x)) :
    WholeEndings l.text ∧ StandsOutside shortTags l.unify (unifyLineEndings x) := by
  cases h with
  | echoTag => exact unify_plain .echoTag (by decide)
  | lastTag hword =>
    refine unify_plain (.lastTag hword) ?_
    simpa using notMem_cr_of_word hword
  | @longTag w e x hword hends =>
    have hcr : '\r' ∉ '<' :: '?' :: w := by simpa using notMem_cr_of_word hword
    rcases hends with rfl | ⟨c, rfl, hblank, hcrlf⟩
    · have hsplit : '<' :: '?' :: (w ++ ['\r', '\n']) = ('<' :: '?' :: w) ++ ['\r', '\n'] := rfl
      refine ⟨hw.left fun _ => ?_, ?_⟩
      · rw [hsplit, List.getLast?_append_of_ne_nil _ (by simp)]
        decide
      · rw [Lexeme.unify, hsplit, Text.unifyLineEndings_append_of_notMem hcr]
        exact .longTag hword (Or.inr ⟨'\n', rfl, rfl, fun hcr => absurd hcr (by decide)⟩)
    · have hc : c ≠ '\r' := by
        rintro rfl
        exact hcrlf rfl (Text.wholeEndings_iff.1 hw ('<' :: '?' :: w) x (by simp))
      refine unify_plain (.longTag hword (Or.inr ⟨c, rfl, hblank, hcrlf⟩)) ?_
      rintro hmem
      rcases List.mem_append.1 (show '\r' ∈ ('<' :: '?' :: w) ++ [c] from hmem) with hmem | hmem
      · exact hcr hmem
      · exact hc (List.mem_singleton.1 hmem).symm
  | shortTag hon hother hshort => exact unify_plain (.shortTag hon hother hshort) (by decide)
  | @text t x hany hends =>
    have hl : WholeEndings t := hw.left fun hlf => by
      obtain ⟨r, rfl⟩ := List.head?_eq_some_iff.1 hlf
      rcases (Text.breakAt_eq_iff.1 hends).1 with hnil | hopens
      · cases hnil
      · rw [isSome_openTag?_of_ne (by decide)] at hopens
        cases hopens
    exact ⟨hl, .text (mt Text.unifyLineEndings_eq_nil.1 hany) (break_openTag?_unify hw hl hends)⟩

/-- Unified one by one, lexemes in a row are in a row, and they make up the unified text. -/
theorem InRow.unify {m : Mode} {ls : List Lexeme} (h : InRow shortTags m ls)
    (hw : WholeEndings (texts ls)) : InRow shortTags m (ls.map (·.unify)) ∧
      texts (ls.map (·.unify)) = unifyLineEndings (texts ls) := by
  induction h with
  | nil => exact ⟨.nil, rfl⟩
  | @cons m l ls hfirst _ ih =>
    rw [texts_cons] at hw
    obtain ⟨hrow, htexts⟩ := ih hw.right
    obtain ⟨hl, hstands⟩ : WholeEndings l.text ∧
        m.Stands shortTags l.unify (unifyLineEndings (texts ls)) := by
      cases m with
      | html => exact StandsOutside.unify hfirst hw
      | code afterAccess => exact Stands.unify hfirst hw
    rw [List.map_cons, texts_cons, texts_cons, htexts, hl.unify_append]
    refine ⟨.cons ?_ hrow, rfl⟩
    rwa [htexts]

/-- Names hold no line endings. -/
theorem Stands.notMem_cr (h : Stands afterAccess l x) (hpart : l.kind.isNamePart = true) :
    '\r' ∉ l.text := by
  cases h with
  | separator _ => decide
  | fullyQualified _ hrun =>
    exact List.not_mem_cons_of_ne_of_not_mem (by decide) (notMem_cr_of_clear (clear_nameRun hrun))
  | name _ hrun => exact notMem_cr_of_clear (clear_nameRun hrun)
  | @block body _ _ | @openBlock body _ =>
    rcases blockKind_cases body with hkind | hkind <;> rw [hkind] at hpart <;> cases hpart
  | mark hlead =>
    have hmarks : ∀ kind ∈ markKinds, kind.isNamePart = false := by decide
    rw [hmarks _ (mem_markKinds hlead)] at hpart
    cases hpart
  | longMark hmem =>
    have hmarks : ∀ e ∈ longMarks, e.2.isNamePart = false := by decide
    rw [hmarks _ hmem] at hpart
    cases hpart
  | heredoc hreads =>
    rw [heredoc?_kind hreads] at hpart
    cases hpart
  | blanks | line | closeTag | operator | dollarName | string | openString | number | stray =>
    cases hpart

end Lexeme
end PhpImports
