import PhpImports.Proofs.Lexeme.Heredoc
import PhpImports.Proofs.Lexeme.LookAhead

/-!
# No look ahead passes a greater-than sign

Blanks, names, numbers and the openers of heredocs hold no greater-than sign, and a mark that ends
with one has been read when it is met. So a lexeme that stands in front of a text with such a sign
in it stands there whatever is appended to the text (`Stands.append`, `StandsOutside.append`). How
a close tag goes on is settled behind its sign, and nothing is said of that here.
-/

namespace PhpImports

namespace Text

variable {s a x : Text} {p : Char → Bool} {k : Char}

/-- A part without the character is cut from what has it in front of the seam. -/
theorem exists_of_append_eq (hk : k ∈ s) (ha : k ∉ a) {b : Text} (h : s ++ b = a ++ x) :
    ∃ r, s = a ++ r ∧ x = r ++ b ∧ k ∈ r := by
  rcases List.append_eq_append_iff.1 h with ⟨r, rfl, -⟩ | ⟨r, rfl, rfl⟩
  · exact absurd (List.mem_append_left r hk) ha
  · exact ⟨r, rfl, rfl, (List.mem_append.1 hk).resolve_left ha⟩

theorem mem_dropWhile (hk : k ∈ s) (hp : p k = false) : k ∈ s.dropWhile p := by
  rw [← List.takeWhile_append_dropWhile (p := p) (l := s)] at hk
  exact (List.mem_append.1 hk).resolve_left (notMem_takeWhile hp)

theorem head?_append_of_mem (hk : k ∈ s) (b : Text) : (s ++ b).head? = s.head? :=
  List.head?_append_of_ne_nil _ (List.ne_nil_of_mem hk)

/-- A run ends at the character that is not in its class, if not before. -/
theorem takeWhile_append_of_mem (hk : k ∈ s) (hp : p k = false) (b : Text) :
    (s ++ b).takeWhile p = s.takeWhile p ∧ (s ++ b).dropWhile p = s.dropWhile p ++ b := by
  have hends : (s.dropWhile p ++ b).head?.any p = false := by
    rw [head?_append_of_mem (mem_dropWhile hk hp), head?_dropWhile_any]
  have hrun := takeWhile_append_eq (List.all_eq_true.1 (List.all_takeWhile (p := p) (l := s))) hends
  rwa [← List.append_assoc, List.takeWhile_append_dropWhile] at hrun

theorem startsWith_append_of_mem {pattern : Text} (hk : k ∈ s) (hpattern : k ∉ pattern) (b : Text) :
    (s ++ b).startsWith pattern = s.startsWith pattern := by
  rw [Bool.eq_iff_iff, startsWith_iff, startsWith_iff]
  constructor
  · rintro ⟨r, hr⟩
    obtain ⟨t, ht, -, -⟩ := exists_of_append_eq hk hpattern hr
    exact ⟨t, ht⟩
  · rintro ⟨r, rfl⟩
    exact ⟨r ++ b, List.append_assoc _ _ _⟩

theorem startsLabel_append_of_mem (hk : k ∈ s) (b : Text) :
    (s ++ b).startsLabel = s.startsLabel :=
  startsLabel_append (List.ne_nil_of_mem hk)

theorem continuesName_append_of_mem (hs : '>' ∈ s) (b : Text) :
    (s ++ b).continuesName = s.continuesName := by
  rcases s with _ | ⟨c, r⟩
  · cases hs
  · rcases List.mem_cons.1 hs with rfl | hr
    · rfl
    · rw [List.cons_append, continuesName, continuesName, startsLabel_append_of_mem hr]

/-- A break stays where it is if the text behind it, and what is asked there, have the sign. -/
theorem breakAt_append_of_mem {stop : Text → Bool} {b : Text}
    (hstop : ∀ s, '>' ∈ s → stop (s ++ b) = stop s) (hx : '>' ∈ x)
    (h : breakAt stop (a ++ x) = (a, x)) : breakAt stop (a ++ (x ++ b)) = (a, x ++ b) := by
  obtain ⟨hend, hbefore⟩ := breakAt_eq_iff.1 h
  refine breakAt_eq_iff.2 ⟨Or.inr ?_, ?_⟩
  · rw [hstop x hx]
    exact hend.resolve_left (List.ne_nil_of_mem hx)
  · intro p c q hpq
    have hq : '>' ∈ c :: (q ++ x) := List.mem_cons_of_mem c (List.mem_append_right q hx)
    rw [← List.append_assoc, ← List.cons_append, hstop _ hq]
    exact hbefore p c q hpq

end Text

namespace Lexeme

variable {s x : Text} (b : Text)

theorem numeralAlike_append (hs : '>' ∈ s) : NumeralAlike (s ++ b) s := by
  induction s with
  | nil => cases hs
  | cons c s ih =>
    cases hc : isNumeralChar c with
    | true =>
      refine .cons hc (ih ?_)
      rcases List.mem_cons.1 hs with rfl | hs
      · cases hc
      · exact hs
    | false => exact .stop hc hc rfl

theorem notMem_of_word {w : Text} (hword : Text.toLower w = "php".toList) : '>' ∉ w := by
  intro hmem
  have hlower : Char.toLower '>' ∈ "php".toList := by
    rw [← hword]
    exact List.mem_map_of_mem hmem
  exact absurd hlower (by decide)

theorem opensLongTag_append_of_mem (hs : '>' ∈ s) :
    opensLongTag (s ++ b) = opensLongTag s := by
  rw [Bool.eq_iff_iff, opensLongTag_iff, opensLongTag_iff]
  constructor
  · rintro ⟨w, r, hsplit, hword, hends⟩
    obtain ⟨t, rfl, rfl, ht⟩ := Text.exists_of_append_eq hs (notMem_of_word hword) hsplit
    exact ⟨w, t, rfl, hword, by rwa [Text.head?_append_of_mem ht] at hends⟩
  · rintro ⟨w, r, rfl, hword, hends⟩
    have hr : '>' ∈ r := (List.mem_append.1 hs).resolve_left (notMem_of_word hword)
    exact ⟨w, r ++ b, List.append_assoc _ _ _, hword, by rwa [Text.head?_append_of_mem hr]⟩

theorem isSome_openTag?_append {shortTags : Bool} (hs : '>' ∈ s) :
    (openTag? shortTags (s ++ b)).isSome = (openTag? shortTags s).isSome := by
  rw [isSome_openTag?, isSome_openTag?, Text.startsWith_append_of_mem hs (by decide)]
  cases hmark : s.startsWith "<?".toList with
  | false => rfl
  | true =>
    obtain ⟨r, rfl⟩ := Text.startsWith_iff.1 hmark
    have hr : '>' ∈ r := (List.mem_append.1 hs).resolve_left (by decide)
    rw [List.append_assoc, show 2 = "<?".toList.length from rfl, List.drop_left, List.drop_left,
      opensLongTag_append_of_mem b hr, Text.head?_append_of_mem hr]

theorem closeTagLength_append (hs : '>' ∈ s) : closeTagLength (s ++ b) = closeTagLength s := by
  rcases s with _ | ⟨c, r⟩
  · cases hs
  · by_cases hc : c = '\r'
    · subst hc
      rcases List.mem_cons.1 hs with hcr | hr
      · cases hcr
      · obtain ⟨d, r, rfl⟩ := List.exists_cons_of_ne_nil (List.ne_nil_of_mem hr)
        by_cases hd : d = '\n'
        · subst hd
          rfl
        · simp [closeTagLength, hd]
    · rw [List.cons_append, closeTagLength_cons hc, closeTagLength_cons hc]

namespace HeredocOpener

theorem readQuote_append_of_mem (hs : '>' ∈ s) : '>' ∈ (readQuote s).2 ∧
    readQuote (s ++ b) = ((readQuote s).1, (readQuote s).2 ++ b) := by
  cases s with
  | nil => cases hs
  | cons c r =>
    rw [List.cons_append, readQuote, readQuote]
    split
    · next hquote =>
      refine ⟨(List.mem_cons.1 hs).resolve_left ?_, rfl⟩
      rintro rfl
      rcases hquote with h | h <;> cases h
    · exact ⟨hs, rfl⟩

theorem readClosingQuote?_append_of_mem (quote : Option Char) (hs : '>' ∈ s) :
    readClosingQuote? quote (s ++ b) = (readClosingQuote? quote s).map (· ++ b) := by
  cases quote with
  | none => rfl
  | some q =>
    cases s with
    | nil => cases hs
    | cons c r =>
      rw [List.cons_append, readClosingQuote?, readClosingQuote?]
      split <;> rfl

theorem readLineEnding?_append_of_mem (hs : '>' ∈ s) : readLineEnding? (s ++ b) =
    (readLineEnding? s).map fun x => (x.1, x.2 ++ b) := by
  rcases s with _ | ⟨c, r⟩
  · cases hs
  · by_cases hlf : c = '\n'
    · subst hlf
      rfl
    · by_cases hcr : c = '\r'
      · subst hcr
        rcases List.mem_cons.1 hs with hmark | hr
        · cases hmark
        · obtain ⟨d, r, rfl⟩ := List.exists_cons_of_ne_nil (List.ne_nil_of_mem hr)
          by_cases hd : d = '\n'
          · subst hd
            rfl
          · simp [readLineEnding?, hd]
      · simp [readLineEnding?, hlf, hcr]

/-- An opener is read, or not, from what is in front of the sign. -/
theorem read?_append_of_mem (hs : '>' ∈ s) :
    read? (s ++ b) = (read? s).map fun x => (x.1, x.2 ++ b) := by
  have hline := Text.mem_dropWhile hs (p := isIndent) rfl
  obtain ⟨hindent, hdrop⟩ := Text.takeWhile_append_of_mem hs (p := isIndent) rfl b
  have hquote := @quote_of_readQuote (s.dropWhile isIndent)
  obtain ⟨hlabel, hread⟩ := readQuote_append_of_mem b hline
  rw [read?, read?, hdrop, hread, hindent]
  generalize readQuote (s.dropWhile isIndent) = x at hquote hlabel
  obtain ⟨quote, r⟩ := x
  simp only at hquote hlabel ⊢
  have hbehind := Text.mem_dropWhile hlabel (p := isLabelChar) rfl
  obtain ⟨hname, hrest⟩ := Text.takeWhile_append_of_mem hlabel (p := isLabelChar) rfl b
  rw [Text.startsLabel_append_of_mem hlabel, hname, hrest,
    readClosingQuote?_append_of_mem b quote hbehind]
  cases hstart : r.startsLabel with
  | false => rfl
  | true =>
    cases hclosing : readClosingQuote? quote (r.dropWhile isLabelChar) with
    | none => rfl
    | some r' =>
      have hr' : '>' ∈ r' := by
        rw [← readClosingQuote?_append hclosing] at hbehind
        refine (List.mem_append.1 hbehind).resolve_left ?_
        intro hmem
        rcases hquote (Option.mem_toList.1 hmem) with h | h <;> cases h
      simp only [Option.map_some, readLineEnding?_append_of_mem b hr']
      cases readLineEnding? r' <;> rfl

end HeredocOpener

variable {label : Text}

theorem closesHeredoc_append (hlabel : IsLabel label) (hs : '>' ∈ s) :
    closesHeredoc label (s ++ b) = closesHeredoc label s := by
  have hline := Text.mem_dropWhile hs (p := isIndent) rfl
  have hmark : '>' ∉ label := fun hmem => by cases hlabel.2 '>' hmem
  rw [Bool.eq_iff_iff, closesHeredoc_iff, closesHeredoc_iff,
    (Text.takeWhile_append_of_mem hs (p := isIndent) rfl b).2]
  constructor
  · rintro ⟨r, hsplit, hends⟩
    obtain ⟨t, ht, rfl, hmem⟩ := Text.exists_of_append_eq hline hmark hsplit
    exact ⟨t, ht, by rwa [Text.head?_append_of_mem hmem] at hends⟩
  · rintro ⟨r, hsplit, hends⟩
    rw [hsplit] at hline ⊢
    have hmem : '>' ∈ r := (List.mem_append.1 hline).resolve_left hmark
    exact ⟨r ++ b, List.append_assoc _ _ _, by rwa [Text.head?_append_of_mem hmem]⟩

theorem heredocLines_suffix (label seen : Text) (atLineStart : Bool) (s : Text) :
    (heredocLines.go label seen atLineStart s).2 <:+ s := by
  induction s generalizing seen atLineStart with
  | nil => exact List.suffix_rfl
  | cons c s ih =>
    rw [heredocLines.go]
    split
    · exact List.suffix_rfl
    · exact (ih _ _).trans (List.suffix_cons c s)

/-- The line that closes a heredoc in front of the sign still does. -/
theorem heredocLines_append (hlabel : IsLabel label) (seen : Text) (atLineStart : Bool)
    (hs : '>' ∈ (heredocLines.go label seen atLineStart s).2) :
    heredocLines.go label seen atLineStart (s ++ b) =
      ((heredocLines.go label seen atLineStart s).1,
        (heredocLines.go label seen atLineStart s).2 ++ b) := by
  induction s generalizing seen atLineStart with
  | nil => cases hs
  | cons c s ih =>
    have hmem : '>' ∈ c :: s := (heredocLines_suffix label seen atLineStart (c :: s)).subset hs
    have hcloses := closesHeredoc_append b hlabel hmem
    rw [List.cons_append] at hcloses
    rw [heredocLines.go] at hs
    rw [List.cons_append, heredocLines.go, heredocLines.go, hcloses]
    split
    · rfl
    · next hopen =>
      rw [if_neg hopen] at hs
      exact ih _ _ hs

theorem heredocBody_append_of_mem (hlabel : IsLabel label)
    (hclosed : (heredocBody label s).2 = some x) (hx : '>' ∈ x) :
    heredocBody label (s ++ b) = ((heredocBody label s).1, some (x ++ b)) := by
  rcases heredocBody_cases label s with ⟨-, hnone⟩ | ⟨-, y, hy, -, hbody⟩
  · rw [hnone] at hclosed
    cases hclosed
  · obtain rfl : y = x := by
      rw [hbody] at hclosed
      exact Option.some.inj hclosed
    have hlines : '>' ∈ (heredocLines label s).2 → heredocLines label (s ++ b) =
        ((heredocLines label s).1, (heredocLines label s).2 ++ b) :=
      heredocLines_append b hlabel [] true
    rw [heredocBody, heredocBody]
    generalize heredocLines label s = lines at hy hlines ⊢
    obtain ⟨body, rest⟩ := lines
    simp only at hy hlines ⊢
    have hrest : rest = rest.takeWhile isIndent ++ (label ++ y) := by
      rw [← hy, List.takeWhile_append_dropWhile]
    have hmem : '>' ∈ rest := by
      rw [hrest]
      exact List.mem_append_right _ (List.mem_append_right _ hx)
    have hindent := (Text.takeWhile_append_of_mem hmem (p := isIndent) rfl b).1
    simp only [hlines hmem, hindent]
    rw [if_neg (List.append_ne_nil_of_left_ne_nil (List.ne_nil_of_mem hmem) b)]
    generalize rest.takeWhile isIndent = indent at hrest
    rw [hrest, List.append_assoc, List.append_assoc, List.take_length_add_append,
      List.take_length_add_append, List.drop_length_add_append, List.take_left, List.take_left,
      List.drop_left]

/-- A heredoc that ends in front of the sign is the same heredoc. -/
theorem heredoc?_append {l : Lexeme} (hreads : heredoc? s = some (l, x)) (hx : '>' ∈ x) :
    heredoc? (s ++ b) = some (l, x ++ b) := by
  have hs : '>' ∈ s := by
    have hsplit := (heredoc?_splits hreads).1
    simp only at hsplit
    have hmem : '>' ∈ "<<<".toList ++ s := by
      rw [← hsplit]
      exact List.mem_append_right _ hx
    exact (List.mem_append.1 hmem).resolve_left (by decide)
  obtain ⟨⟨o, body⟩, ho, henclosed⟩ := Option.map_eq_some_iff.1 hreads
  simp only [enclosed_eq, Prod.mk.injEq] at henclosed
  obtain ⟨hl, hrest⟩ := henclosed
  have hclosed : (heredocBody o.label body).2 = some x := by
    cases hbody : (heredocBody o.label body).2 with
    | none =>
      rw [hbody] at hrest
      rw [← hrest] at hx
      cases hx
    | some y =>
      rw [hbody] at hrest
      exact congrArg some hrest
  have hbody := heredocBody_append_of_mem b (HeredocOpener.read?_isOpener ho).isLabel hclosed hx
  rw [heredoc?, HeredocOpener.read?_append_of_mem b hs, ho]
  simp only [Option.map_some, enclosed_eq, hbody, ← hl, hclosed]
  rfl

theorem isNone_heredoc?_append (hs : '>' ∈ s) :
    (heredoc? (s ++ b)).isNone = (heredoc? s).isNone := by
  rw [heredoc?, heredoc?, HeredocOpener.read?_append_of_mem b hs, Option.isNone_map,
    Option.isNone_map, Option.isNone_map]

theorem startsWith_arrow_append (hx : '>' ∈ x) :
    (x ++ b).startsWith "->".toList = x.startsWith "->".toList := by
  rcases x with _ | ⟨c, x⟩
  · cases hx
  · rcases List.mem_cons.1 hx with rfl | hx
    · rfl
    · obtain ⟨d, x, rfl⟩ := List.exists_cons_of_ne_nil (List.ne_nil_of_mem hx)
      simp

theorem nameRun_append_of_mem {n : Text} (hx : '>' ∈ x) (hrun : nameRun (n ++ x) = (n, x)) :
    nameRun (n ++ (x ++ b)) = (n, x ++ b) :=
  Text.breakAt_append_of_mem (fun _ hs => by rw [Text.continuesName_append_of_mem hs]) hx hrun

/-- An operator that goes on with nothing in front of the sign goes on with nothing. -/
theorem standsAlone_append {c : Char} (hx : '>' ∈ x) :
    standsAlone c (x ++ b) = standsAlone c x := by
  rw [standsAlone, standsAlone]
  cases Lead.of c with
  | slash | minus | colon => simp only [Text.head?_append_of_mem hx]
  | question => simp only [Text.head?_append_of_mem hx, startsWith_arrow_append b hx]
  | dollar => simp only [Text.startsLabel_append_of_mem hx]
  | dot => simp only [Text.head?_append_of_mem hx]
  | less =>
    simp only [Text.startsWith_append_of_mem hx (show '>' ∉ "<<".toList by decide)]
    cases hstart : x.startsWith "<<".toList with
    | false => rfl
    | true =>
      obtain ⟨r, rfl⟩ := Text.startsWith_iff.1 hstart
      have hr : '>' ∈ r := (List.mem_append.1 hx).resolve_left (by decide)
      have hnone := isNone_heredoc?_append b hr
      simpa using hnone
  | _ => rfl

variable {afterAccess : Bool} {l : Lexeme}

/-- What stands in front of a text with the sign stands there whatever is appended. -/
theorem Stands.append (h : Stands afterAccess l x) (hx : '>' ∈ x) :
    Stands afterAccess l (x ++ b) := by
  have hne : x ≠ [] := List.ne_nil_of_mem hx
  have hhead := Text.head?_append_of_mem hx b
  cases h with
  | blanks hany hblank hends => exact .blanks hany hblank (by rwa [hhead])
  | line hopens hinLine hends =>
    refine .line hopens hinLine (Or.inr ?_)
    have hstop := hends.resolve_left hne
    rcases x with _ | ⟨c, r⟩
    · cases hx
    · rcases List.mem_cons.1 hx with rfl | hr
      · cases hstop
      · rw [List.cons_append, endsLineComment, Text.head?_append_of_mem hr]
        exact hstop
  | block hclosed => exact .block hclosed
  | openBlock _ => cases hx
  | mark hlead => exact .mark hlead
  | longMark hmem => exact .longMark hmem
  | closeTag hends =>
    refine .closeTag ?_
    rw [← List.append_assoc, closeTagLength_append b (List.mem_append_right _ hx)]
    exact hends
  | operator halone => exact .operator ((standsAlone_append b hx).trans halone)
  | dollarName hstarts hlabel hends => exact .dollarName hstarts hlabel (by rwa [hhead])
  | string hquote hclosed => exact .string hquote hclosed
  | openString _ _ => cases hx
  | heredoc hreads => exact .heredoc (heredoc?_append b hreads hx)
  | separator hends => exact .separator ((Text.startsLabel_append_of_mem hx b).trans hends)
  | fullyQualified hstarts hrun => exact .fullyQualified hstarts (nameRun_append_of_mem b hx hrun)
  | name hstarts hrun => exact .name hstarts (nameRun_append_of_mem b hx hrun)
  | @number n x hstarts hreads =>
    have hall := numeralAlike_append b (List.mem_append_right n hx)
    rw [List.append_assoc] at hall
    exact .number (hall.startsNumber.trans hstarts) (hall.numeral.trans hreads)
  | stray hlead => exact .stray hlead

/-- The same outside code. -/
theorem StandsOutside.append {shortTags : Bool} (h : StandsOutside shortTags l x) (hx : '>' ∈ x) :
    StandsOutside shortTags l (x ++ b) := by
  have hhead := Text.head?_append_of_mem hx b
  cases h with
  | echoTag => exact .echoTag
  | lastTag _ => cases hx
  | longTag hword hends => exact .longTag hword (by rwa [hhead])
  | shortTag hon hother hshort =>
    exact .shortTag hon (by rwa [hhead]) ((opensLongTag_append_of_mem b hx).trans hshort)
  | text hany hends =>
    exact .text hany (Text.breakAt_append_of_mem (fun _ hs => isSome_openTag?_append b hs) hx hends)

end Lexeme
end PhpImports
