import PhpImports.Lexeme.OpenTag
import PhpImports.Proofs.Text.Break
import PhpImports.Proofs.Text.Case

/-!
# The lexical grammar outside code

Outside code, a lexeme is one of the open tags or a stretch of text with no open tag in it. As in
code, what is read is exactly what stands in front of the text that is left (`ofHtml_iff`).
-/

namespace PhpImports.Lexeme

/-- Behind the mark of a tag, the long tag goes on here. -/
def opensLongTag (s : Text) : Bool :=
  Text.toLower (s.take 3) = "php".toList && (s.drop 3).head?.all isBlank

/-- The length of a long tag with this text behind its word. -/
def longTagLength : Text → Nat
  | [] => 5
  | '\r' :: '\n' :: _ => 7
  | _ => 6

/-- Outside code, the lexeme stands in front of the text. -/
inductive StandsOutside (shortTags : Bool) : Lexeme → Text → Prop
  | echoTag {x : Text} :
      StandsOutside shortTags { kind := .openTagWithEcho, text := ['<', '?', '='] } x
  | lastTag {w : Text} (word : Text.toLower w = "php".toList) :
      StandsOutside shortTags { kind := .openTag, text := '<' :: '?' :: w } []
  | longTag {w e x : Text} (word : Text.toLower w = "php".toList)
      (ends : e = ['\r', '\n'] ∨
        ∃ c, e = [c] ∧ isBlank c = true ∧ (c = '\r' → x.head? ≠ some '\n')) :
      StandsOutside shortTags { kind := .openTag, text := '<' :: '?' :: (w ++ e) } x
  | shortTag {x : Text} (on : shortTags = true) (other : x.head? ≠ some '=')
      (short : opensLongTag x = false) :
      StandsOutside shortTags { kind := .openTag, text := ['<', '?'] } x
  | text {t x : Text} (any : t ≠ [])
      (ends : Text.breakAt (fun s => (openTag? shortTags s).isSome) (t ++ x) = (t, x)) :
      StandsOutside shortTags { kind := .inlineHtml, text := t } x

variable {shortTags : Bool}

theorem openTag?_mark (s : Text) : openTag? shortTags ('<' :: '?' :: s) =
    if s.head? = some '=' then some (.openTagWithEcho, 3)
    else if opensLongTag s then some (.openTag, longTagLength (s.drop 3))
    else if shortTags then some (.openTag, 2) else none := by
  rw [openTag?]
  by_cases hecho : s.head? = some '='
  · rw [if_pos hecho, if_pos hecho]
  · rw [if_neg hecho, if_neg hecho]
    by_cases hword : Text.toLower (s.take 3) = "php".toList
    · rw [if_pos hword]
      simp only [opensLongTag, hword, decide_true, Bool.true_and]
      split
      · next hrest =>
        rw [hrest]
        rfl
      · next r hrest =>
        rw [hrest]
        rfl
      · next c r hcrlf hrest =>
        rw [hrest, longTagLength]
        · rfl
        · simp
        · rintro t ht
          obtain ⟨hc, hr⟩ := List.cons.inj ht
          exact hcrlf t hc hr
    · rw [if_neg hword, opensLongTag, decide_eq_false hword, Bool.false_and]
      rfl

/-- Where a tag opens. -/
theorem isSome_openTag? (s : Text) : (openTag? shortTags s).isSome =
    (s.startsWith "<?".toList &&
      (decide ((s.drop 2).head? = some '=') || opensLongTag (s.drop 2) || shortTags)) := by
  cases hmark : s.startsWith "<?".toList with
  | true =>
    obtain ⟨r, rfl⟩ := Text.startsWith_iff.1 hmark
    rw [show "<?".toList ++ r = '<' :: '?' :: r from rfl, openTag?_mark]
    simp only [List.drop_succ_cons, List.drop_zero]
    by_cases hecho : r.head? = some '='
    · simp [hecho]
    · rw [if_neg hecho, decide_eq_false hecho]
      cases opensLongTag r with
      | true => rfl
      | false => cases shortTags <;> rfl
  | false =>
    rw [openTag?.eq_def]
    split
    · next r => simp at hmark
    · rfl

theorem exists_of_isSome_openTag? {t : Text} (h : (openTag? shortTags t).isSome = true) :
    ∃ r, t = '<' :: r := by
  rw [isSome_openTag?, Bool.and_eq_true] at h
  obtain ⟨r, rfl⟩ := Text.startsWith_iff.1 h.1
  exact ⟨'?' :: r, rfl⟩

theorem length_of_word {w : Text} (hword : Text.toLower w = "php".toList) : w.length = 3 := by
  rw [← List.length_map Char.toLower, ← Text.toLower, hword]
  rfl

theorem longTagLength_cons {c : Char} {s : Text} (h : c = '\r' → s.head? ≠ some '\n') :
    longTagLength (c :: s) = 6 := by
  rw [longTagLength.eq_def]
  split
  · next hs => cases hs
  · next t hs =>
    obtain ⟨rfl, rfl⟩ := List.cons.inj hs
    exact absurd rfl (h rfl)
  · rfl

theorem opensLongTag_append {w : Text} (hword : Text.toLower w = "php".toList) (s : Text) :
    opensLongTag (w ++ s) = s.head?.all isBlank := by
  rw [opensLongTag, ← length_of_word hword, List.take_left, List.drop_left, hword]
  rfl

theorem opensLongTag_iff {s : Text} : opensLongTag s = true ↔
    ∃ w r, s = w ++ r ∧ Text.toLower w = "php".toList ∧ r.head?.all isBlank = true := by
  constructor
  · intro hopens
    rw [opensLongTag, Bool.and_eq_true, decide_eq_true_iff] at hopens
    exact ⟨s.take 3, s.drop 3, (List.take_append_drop 3 s).symm, hopens⟩
  · rintro ⟨w, r, rfl, hword, hends⟩
    rw [opensLongTag_append hword, hends]

/-- The mark of a tag is no part of the word behind it. -/
theorem mark_notMem_of_word {w : Text} (hword : Text.toLower w = "php".toList) : '<' ∉ w := by
  intro hmem
  have hlower : Char.toLower '<' ∈ "php".toList := by
    rw [← hword]
    exact List.mem_map_of_mem hmem
  exact absurd hlower (by decide)

theorem opensLongTag_append_mark (s t : Text) :
    opensLongTag (s ++ '<' :: t) = true → opensLongTag s = true := by
  rw [opensLongTag_iff, opensLongTag_iff]
  rintro ⟨w, r, hsplit, hword, hends⟩
  rcases List.append_eq_append_iff.1 hsplit with ⟨u, rfl, hrest⟩ | ⟨u, rfl, rfl⟩
  · cases u with
    | nil => exact ⟨s, [], (List.append_nil s).symm, by rwa [List.append_nil] at hword, rfl⟩
    | cons d u =>
      obtain ⟨rfl, -⟩ := List.cons.inj hrest
      exact absurd (by simp) (mark_notMem_of_word hword)
  · refine ⟨w, u, rfl, hword, ?_⟩
    cases u with
    | nil => rfl
    | cons d u => exact hends

/-- A long tag is read behind its word if that is where it ends. -/
theorem openTag?_long {w : Text} (hword : Text.toLower w = "php".toList) {s : Text}
    (hends : s.head?.all isBlank = true) :
    openTag? shortTags ('<' :: '?' :: (w ++ s)) = some (.openTag, longTagLength s) := by
  have hlength := length_of_word hword
  have hecho : (w ++ s).head? ≠ some '=' := by
    cases w with
    | nil => cases hlength
    | cons c w =>
      intro hhead
      obtain rfl : c = '=' := by simpa using hhead
      cases hword
  rw [openTag?_mark, if_neg hecho, opensLongTag_append hword, if_pos hends, ← hlength,
    List.drop_left]

theorem ofHtml_of_openTag? {t x : Text} {kind : TokenKind}
    (h : openTag? shortTags (t ++ x) = some (kind, t.length)) :
    Lexeme.ofHtml shortTags (t ++ x) = ({ kind, text := t }, x) := by
  rw [Lexeme.ofHtml, h]
  simp [cut]

/-- What stands in front of a text outside code is read there. -/
theorem StandsOutside.ofHtml {l : Lexeme} {x : Text} (h : StandsOutside shortTags l x) :
    l.text ≠ [] ∧ ofHtml shortTags (l.text ++ x) = (l, x) := by
  cases h with
  | echoTag => exact ⟨by simp, ofHtml_of_openTag? rfl⟩
  | @lastTag w hword =>
    refine ⟨by simp, ofHtml_of_openTag? ?_⟩
    rw [List.append_nil, List.length_cons, List.length_cons, length_of_word hword]
    have htag := @openTag?_long shortTags w hword [] rfl
    rwa [List.append_nil] at htag
  | @longTag w e x hword hends =>
    refine ⟨by simp, ofHtml_of_openTag? ?_⟩
    rw [List.cons_append, List.cons_append, List.append_assoc]
    rcases hends with rfl | ⟨c, rfl, hblank, hcrlf⟩
    · rw [openTag?_long hword rfl]
      simp [length_of_word hword, longTagLength]
    · rw [openTag?_long hword (by simpa using hblank), List.cons_append, List.nil_append,
        longTagLength_cons hcrlf]
      simp [length_of_word hword]
  | shortTag hon hother hshort =>
    refine ⟨by simp, ofHtml_of_openTag? ?_⟩
    rw [List.cons_append, List.cons_append, List.nil_append, openTag?_mark, if_neg hother, hshort,
      hon]
    rfl
  | @text t x hany hends =>
    refine ⟨hany, ?_⟩
    have hnone : openTag? shortTags (t ++ x) = none := by
      obtain ⟨c, t, rfl⟩ := List.exists_cons_of_ne_nil hany
      have hbefore := (Text.breakAt_eq_iff.1 hends).2 [] c t rfl
      simpa using hbefore
    rw [Lexeme.ofHtml, hnone]
    simp only [upTo, hends]

theorem standsOutside_longTag {w s : Text} (hword : Text.toLower w = "php".toList)
    (hends : s.head?.all isBlank = true) :
    StandsOutside shortTags (cut .openTag (longTagLength s) ('<' :: '?' :: (w ++ s))).1
      (cut .openTag (longTagLength s) ('<' :: '?' :: (w ++ s))).2 := by
  have hlength := length_of_word hword
  have hcut : ∀ e x : Text, s = e ++ x → longTagLength s = 5 + e.length →
      cut .openTag (longTagLength s) ('<' :: '?' :: (w ++ s)) =
        ({ kind := .openTag, text := '<' :: '?' :: (w ++ e) }, x) := by
    rintro e x rfl htag
    have hsplit : '<' :: '?' :: (w ++ (e ++ x)) = ('<' :: '?' :: (w ++ e)) ++ x := by simp
    have hsize : longTagLength (e ++ x) = ('<' :: '?' :: (w ++ e)).length := by
      simp only [List.length_cons, List.length_append]
      omega
    rw [cut, hsize, hsplit, List.take_left, List.drop_left]
  cases s with
  | nil =>
    rw [hcut [] [] rfl rfl, List.append_nil]
    exact .lastTag hword
  | cons c x =>
    by_cases hcrlf : c = '\r' ∧ x.head? = some '\n'
    · obtain ⟨rfl, hhead⟩ := hcrlf
      obtain ⟨x, rfl⟩ := List.head?_eq_some_iff.1 hhead
      rw [hcut ['\r', '\n'] x rfl rfl]
      exact .longTag hword (Or.inl rfl)
    · have hplain : c = '\r' → x.head? ≠ some '\n' := fun hc hx => hcrlf ⟨hc, hx⟩
      rw [hcut [c] x rfl (longTagLength_cons hplain)]
      exact .longTag hword (Or.inr ⟨c, rfl, by simpa using hends, hplain⟩)

/-- What is read in front of a text outside code stands there. -/
theorem standsOutside_ofHtml (c : Char) (r : Text) :
    StandsOutside shortTags (Lexeme.ofHtml shortTags (c :: r)).1
      (Lexeme.ofHtml shortTags (c :: r)).2 := by
  have hopens := @isSome_openTag? shortTags (c :: r)
  rw [Lexeme.ofHtml]
  split
  · next kind n htag =>
    rw [htag, Option.isSome_some, eq_comm, Bool.and_eq_true] at hopens
    obtain ⟨s, hs⟩ := Text.startsWith_iff.1 hopens.1
    rw [hs, show "<?".toList ++ s = '<' :: '?' :: s from rfl] at htag ⊢
    rw [openTag?_mark] at htag
    split at htag
    · next hecho =>
      cases htag
      obtain ⟨t, rfl⟩ := List.head?_eq_some_iff.1 hecho
      exact .echoTag
    · next hecho =>
      split at htag
      · next hlong =>
        cases htag
        obtain ⟨w, t, rfl, hword, hends⟩ := opensLongTag_iff.1 hlong
        rw [← length_of_word hword, List.drop_left]
        exact standsOutside_longTag hword hends
      · next hlong =>
        split at htag
        · next hon =>
          cases htag
          exact .shortTag hon hecho (Bool.eq_false_iff.2 hlong)
        · cases htag
  · next hnone =>
    have happend := Text.breakAt_append (fun s => (openTag? shortTags s).isSome) (c :: r)
    have hany : (Text.breakAt (fun s => (openTag? shortTags s).isSome) (c :: r)).1 ≠ [] :=
      Text.breakAt_ne_nil (by simp [hnone])
    cases hbreak : Text.breakAt (fun s => (openTag? shortTags s).isSome) (c :: r) with
    | mk t x =>
      rw [hbreak] at happend hany
      simp only [upTo, hbreak]
      exact .text hany (by rw [happend, hbreak])

/-- A lexeme is read outside code exactly if it stands in front of what is left. -/
theorem ofHtml_iff {c : Char} {r : Text} {l : Lexeme} {x : Text} :
    Lexeme.ofHtml shortTags (c :: r) = (l, x) ↔
      l.text ++ x = c :: r ∧ StandsOutside shortTags l x := by
  constructor
  · intro hread
    have hsplit := (ofHtml_splits shortTags c r).1
    have hstands := @standsOutside_ofHtml shortTags c r
    rw [hread] at hsplit hstands
    exact ⟨hsplit, hstands⟩
  · rintro ⟨happend, hstands⟩
    rw [← happend]
    exact hstands.ofHtml.2

end PhpImports.Lexeme
