import PhpImports.Lexeme.Heredoc
import PhpImports.Proofs.Cursor.Name

/-!
# Heredocs at byte offsets

The opener of a heredoc is read ahead, and an offset moves only once all of it is there. Then every
line is looked at from its first byte on: past its indentation the text is cut and compared with the
label, and else the next line is found by another cut.
-/

namespace PhpImports

namespace Lexeme

theorem heredocLines_go (label seen : Text) (atLineStart : Bool) (s : Text) :
    heredocLines.go label seen atLineStart s =
      (seen.reverse ++ (heredocLines.go label [] atLineStart s).1,
        (heredocLines.go label [] atLineStart s).2) := by
  induction s generalizing seen atLineStart with
  | nil => simp [heredocLines.go]
  | cons c r ih =>
    rw [heredocLines.go, heredocLines.go]
    split
    · simp
    · rw [ih (c :: seen), ih [c]]
      simp

/-- Inside a line nothing closes a heredoc. -/
theorem heredocLines_go_line (label : Text) {line : Text} (rest : Text) (hline : '\n' ∉ line) :
    heredocLines.go label [] false (line ++ rest) =
      (line ++ (heredocLines.go label [] false rest).1,
        (heredocLines.go label [] false rest).2) := by
  induction line with
  | nil => rfl
  | cons c line ih =>
    have hc : decide (c = '\n') = false := by
      rw [decide_eq_false_iff_not]
      rintro rfl
      exact hline List.mem_cons_self
    have hrest := ih fun h => hline (List.mem_cons_of_mem c h)
    rw [List.cons_append, heredocLines.go, Bool.false_and, if_neg (by decide), hc,
      heredocLines_go, hrest]
    simp

theorem heredocLines_of_closes {label s : Text} (hs : s ≠ [])
    (h : closesHeredoc label s = true) : heredocLines label s = ([], s) := by
  cases s with
  | nil => exact absurd rfl hs
  | cons c r => rw [heredocLines, heredocLines.go, h, if_pos (by rfl)]; rfl

/-- A line that does not close a heredoc is part of it. -/
theorem heredocLines_line {label line rest : Text} (hline : '\n' ∉ line)
    (h : closesHeredoc label (line ++ '\n' :: rest) = false) :
    heredocLines label (line ++ '\n' :: rest) =
      (line ++ '\n' :: (heredocLines label rest).1, (heredocLines label rest).2) := by
  have hbreak : heredocLines.go label [] false ('\n' :: rest) =
      ('\n' :: (heredocLines label rest).1, (heredocLines label rest).2) := by
    rw [heredocLines.go, Bool.false_and, if_neg (by decide), heredocLines_go]
    rfl
  have hinside := heredocLines_go_line label ('\n' :: rest) hline
  rw [hbreak] at hinside
  rw [← hinside]
  cases line with
  | nil => rw [List.nil_append] at h ⊢; simp [heredocLines, heredocLines.go, h]
  | cons c line => rw [List.cons_append] at h ⊢; simp [heredocLines, heredocLines.go, h]

theorem heredocLines_lastLine {label line : Text} (hline : '\n' ∉ line)
    (h : closesHeredoc label line = false) : heredocLines label line = (line, []) := by
  have hinside := heredocLines_go_line label [] hline
  rw [List.append_nil] at hinside
  rw [show (line, ([] : Text)) = (line ++ [], []) by rw [List.append_nil]]
  rw [show heredocLines.go label [] false [] = ([], []) from rfl] at hinside
  rw [← hinside]
  cases line with
  | nil => rfl
  | cons c line => simp [heredocLines, heredocLines.go, h]

theorem heredocBody_of_closes {label s : Text} (hs : s ≠ []) (h : closesHeredoc label s = true) :
    (heredocBody label s).1 = s.takeWhile isIndent ++ label ∧ (heredocBody label s).2.isSome := by
  have hstart := (Bool.and_eq_true_iff.1 h).1
  obtain ⟨t, ht⟩ := Text.startsWith_iff.1 hstart
  have hsplit : s.takeWhile isIndent ++ label ++ t = s := by
    rw [List.append_assoc, ← ht, List.takeWhile_append_dropWhile]
  have htake := List.prefix_iff_eq_take.1 ⟨t, hsplit⟩
  rw [List.length_append] at htake
  rw [heredocBody, heredocLines_of_closes hs h]
  simp only [List.nil_append, ← htake, if_neg hs, Option.isSome_some, and_self]

theorem heredocBody_line {label line rest : Text} (hline : '\n' ∉ line)
    (h : closesHeredoc label (line ++ '\n' :: rest) = false) :
    heredocBody label (line ++ '\n' :: rest) =
      (line ++ '\n' :: (heredocBody label rest).1, (heredocBody label rest).2) := by
  rw [heredocBody, heredocLines_line hline h, heredocBody]
  simp only [List.append_assoc, List.cons_append]

theorem heredocBody_lastLine {label line : Text} (hline : '\n' ∉ line)
    (h : closesHeredoc label line = false) : heredocBody label line = (line, none) := by
  rw [heredocBody, heredocLines_lastLine hline h]
  simp

end Lexeme

namespace Cursor

/-- What the opener of a heredoc tells: its label, and where the body starts. -/
structure Opened where
  label : Text
  body : Nat
deriving DecidableEq, Repr

/-- The quote at `i`, if one is there. -/
def quoteAt? (s : Text) (i : Nat) : Option Char :=
  if peek s i (· = '\'') then some '\'' else if peek s i (· = '"') then some '"' else none

/-- Past the line ending at `i`, if one is there that is no lone CR. -/
def lineEndingEnd? (s : Text) (i : Nat) : Option Nat :=
  if peek s i (· = '\n') then some (i + 1)
  else if peek s i (· = '\r') && peek s (i + 1) (· = '\n') then some (i + 2)
  else none

/-- The opener of the heredoc whose less-than signs are at `i`, if one is there. -/
def heredocOpener? (s : Text) (i : Nat) : Result (Option Opened) := do
  let j := skipBytes isIndent s (i + 3)
  let quote := quoteAt? s j
  let start := j + quote.toList.length
  if (charAt? s start).any isLabelStart then
    let stop := skipLabel s start
    let label ← textBetween s start stop
    if quote.all (fun q => peek s stop (· = q)) then
      return (lineEndingEnd? s (stop + quote.toList.length)).map (Opened.mk label)
    return none
  return none

/-- Past the label that closes the heredoc, its lines being read from `i` on, and whether it was
found. -/
def heredocEnd (label s : Text) (i : Nat) : Result (Bool × Nat) :=
  if _ : s.size ≤ i then .ok (false, i)
  else do
    let k := skipBytes isIndent s i
    let line ← textFrom s k
    if Text.startsWith line label && !(charAt? s (k + label.size)).any isLabelChar then
      return (true, k + label.size)
    let rest ← textFrom s i
    match find? ['\n'] rest with
    | some n => heredocEnd label s (i + n + 1)
    | none => return (false, s.size)
termination_by s.size - i

/-- The heredoc whose less-than signs are at `i`, if one is there. -/
def heredoc? (s : Text) (i : Nat) : Result (Option Ending) := do
  match ← heredocOpener? s i with
  | none => return none
  | some opened =>
    let (closed, stop) ← heredocEnd opened.label s opened.body
    return some ⟨.heredoc, stop, if closed then none else some (.unterminatedHeredoc opened.label)⟩

theorem asciiClass_isIndent : AsciiClass isIndent :=
  asciiClass_pair

variable {s r : Text} {i : Nat}

theorem At.quoteAt? (h : At s i r) :
    Cursor.quoteAt? s i = (Lexeme.HeredocOpener.readQuote r).1 := by
  rw [Cursor.quoteAt?, h.peek_eq (k := '\''), h.peek_eq (k := '"')]
  cases r with
  | nil => rfl
  | cons c r =>
    by_cases hsingle : c = '\''
    · simp [hsingle, Lexeme.HeredocOpener.readQuote]
    · by_cases hdouble : c = '"'
      · simp [hdouble, Lexeme.HeredocOpener.readQuote]
      · simp [hsingle, hdouble, Lexeme.HeredocOpener.readQuote]

theorem At.lineEndingEnd? (h : At s i r) : Cursor.lineEndingEnd? s i =
    (Lexeme.HeredocOpener.readLineEnding? r).map fun x => i + Text.size x.1 := by
  rw [Cursor.lineEndingEnd?, h.peek_eq (k := '\n'), h.peek_eq (k := '\r')]
  rcases r with _ | ⟨c, r⟩
  · rfl
  · by_cases hlf : c = '\n'
    · subst hlf
      simp [Lexeme.HeredocOpener.readLineEnding?, utf8Size_ascii]
    · by_cases hcr : c = '\r'
      · subst hcr
        have hr : At s (i + 1) r := h.succ
        rw [hr.peek_eq (k := '\n')]
        rcases r with _ | ⟨d, r⟩
        · rfl
        · by_cases hd : d = '\n'
          · subst hd
            rfl
          · simp [Lexeme.HeredocOpener.readLineEnding?, hd]
      · simp [Lexeme.HeredocOpener.readLineEnding?, hlf, hcr]

/-- Past the quote that a text starts with. -/
theorem At.readQuote (h : At s i r) :
    At s (i + (Lexeme.HeredocOpener.readQuote r).1.toList.length)
      (Lexeme.HeredocOpener.readQuote r).2 := by
  rw [Lexeme.HeredocOpener.readQuote.eq_def]
  split
  · exact h
  · next c r =>
    split
    · next hc => rcases hc with rfl | rfl <;> exact h.succ
    · exact h

theorem At.readClosingQuote? {quote : Option Char} (h : At s i r)
    (hquote : IsAscii quote.toList) :
    quote.all (fun q => Cursor.peek s i (· = q)) =
      (Lexeme.HeredocOpener.readClosingQuote? quote r).isSome := by
  cases quote with
  | none => rfl
  | some q =>
    rw [Option.all_some, h.peek_eq (hquote q (Option.mem_toList.2 rfl))]
    cases r with
    | nil => rfl
    | cons c r =>
      by_cases hc : c = q
      · simp [Lexeme.HeredocOpener.readClosingQuote?, hc]
      · simp [Lexeme.HeredocOpener.readClosingQuote?, hc]

theorem readQuote_ascii (r : Text) :
    IsAscii (Lexeme.HeredocOpener.readQuote r).1.toList := by
  intro q hq
  rw [Option.mem_toList] at hq
  rw [Lexeme.HeredocOpener.readQuote.eq_def] at hq
  split at hq
  · cases hq
  · split at hq
    · next hc =>
      cases hq
      rcases hc with rfl | rfl <;> decide
    · cases hq

theorem At.heredocOpener? (h : At s i ("<<<".toList ++ r)) : Cursor.heredocOpener? s i =
    .ok ((Lexeme.HeredocOpener.read? r).map fun x => ⟨x.1.label, i + x.1.text.size⟩) := by
  have hr : At s (i + 3) r := h.advance
  have hindent := hr.takeWhile isIndent
  have hascii := readQuote_ascii (r.dropWhile isIndent)
  have hsize := size_ascii hascii
  have hstart := hindent.readQuote
  rw [Cursor.heredocOpener?, hr.skipBytes asciiClass_isIndent]
  simp only [hindent.quoteAt?]
  rw [Lexeme.HeredocOpener.read?]
  generalize Lexeme.HeredocOpener.readQuote (r.dropWhile isIndent) = x at hascii hsize hstart ⊢
  obtain ⟨quote, s'⟩ := x
  simp only at hascii hsize hstart ⊢
  rw [hstart.charAt?, ← Text.startsLabel_eq_any]
  cases hlabel : Text.startsLabel s' with
  | false => rfl
  | true =>
    have hstop := hstart.takeWhile isLabelChar
    have hcut := At.textBetween (r := s'.dropWhile isLabelChar) (t := s'.takeWhile isLabelChar)
      (by rwa [List.takeWhile_append_dropWhile])
    rw [if_pos rfl, if_pos rfl, hstart.skipLabel, hcut]
    simp only [bind, Except.bind]
    rw [hstop.readClosingQuote? hascii]
    cases hclosing : Lexeme.HeredocOpener.readClosingQuote? quote (s'.dropWhile isLabelChar) with
    | none => rfl
    | some s'' =>
      rw [← Lexeme.HeredocOpener.readClosingQuote?_append hclosing] at hstop
      have hending := hstop.advance
      rw [hsize] at hending
      rw [Option.isSome_some, if_pos rfl, hending.lineEndingEnd?]
      cases hline : Lexeme.HeredocOpener.readLineEnding? s'' with
      | none =>
        simp only [hline]
        rfl
      | some y =>
        obtain ⟨e, body⟩ := y
        have hmarks : Text.size "<<<".toList = 3 := rfl
        simp only [hline, Option.map_some, Lexeme.HeredocOpener.text_eq, Text.size_append, hsize,
          hmarks, pure, Except.pure, Except.ok.injEq, Option.some.injEq, Opened.mk.injEq, true_and]
        omega

/-- The line that is left at an offset closes the heredoc. -/
theorem At.closesHeredoc {label : Text} (h : At s i r) :
    (Text.startsWith (r.dropWhile isIndent) label &&
        !(Cursor.charAt? s (i + Text.size (r.takeWhile isIndent) + label.size)).any isLabelChar) =
      Lexeme.closesHeredoc label r := by
  have hline := h.takeWhile isIndent
  rw [Lexeme.closesHeredoc]
  cases hstart : Text.startsWith (r.dropWhile isIndent) label with
  | false => rfl
  | true =>
    obtain ⟨t, ht⟩ := Text.startsWith_iff.1 hstart
    rw [ht] at hline ⊢
    rw [hline.advance.charAt?, List.drop_left]

/-- The first line that is left, and what comes below it, as a search finds them. -/
theorem find?_lineEnding (r : Text) :
    (find? ['\n'] r = none ∧ '\n' ∉ r) ∨
      ∃ line rest, r = line ++ '\n' :: rest ∧ '\n' ∉ line ∧ find? ['\n'] r = some line.size := by
  have happend := Text.breakAt_append (Text.startsWith · ['\n']) r
  have hstop := Text.breakAt_stop (Text.startsWith · ['\n']) r
  have hline : '\n' ∉ (Text.breakAt (Text.startsWith · ['\n']) r).1 := by
    intro hmem
    obtain ⟨a, b, hab⟩ := List.append_of_mem hmem
    have hnot := Text.breakAt_before _ r hab
    simp at hnot
  rw [find?]
  generalize Text.breakAt (Text.startsWith · ['\n']) r = x at happend hstop hline ⊢
  obtain ⟨line, rest⟩ := x
  simp only at happend hstop hline ⊢
  rcases hstop with rfl | hrest
  · left
    rw [List.append_nil] at happend
    exact ⟨if_pos rfl, happend ▸ hline⟩
  · right
    obtain ⟨t, rfl⟩ := Text.startsWith_iff.1 hrest
    exact ⟨line, t, happend.symm, hline, if_neg (List.cons_ne_nil _ _)⟩

theorem At.heredocEnd {label : Text} (h : At s i r) :
    Cursor.heredocEnd label s i = .ok (closedAt i (Lexeme.heredocBody label r)) := by
  induction hn : r.length using Nat.strongRecOn generalizing i r with
  | ind n ih =>
    have hsize := h.size
    rw [Cursor.heredocEnd]
    by_cases hr : r = []
    · subst hr
      rw [dif_pos (by simp at hsize; omega)]
      simp [closedAt, Lexeme.heredocBody, Lexeme.heredocLines, Lexeme.heredocLines.go]
    · have hpos := Text.size_pos hr
      rw [dif_neg (by omega), h.skipBytes asciiClass_isIndent]
      simp only [(h.takeWhile isIndent).textFrom, h.textFrom, bind, Except.bind]
      rw [h.closesHeredoc]
      cases hcloses : Lexeme.closesHeredoc label r with
      | true =>
        obtain ⟨hbody, hclosed⟩ := Lexeme.heredocBody_of_closes hr hcloses
        rw [if_pos rfl, closedAt, hclosed, hbody, Text.size_append, Nat.add_assoc]
        rfl
      | false =>
        rw [if_neg (by decide)]
        rcases find?_lineEnding r with ⟨hfind, hline⟩ | ⟨line, rest, rfl, hline, hfind⟩
        · rw [hfind, closedAt, Lexeme.heredocBody_lastLine hline hcloses, hsize]
          rfl
        · have hrest : At s (i + line.size + 1) rest := h.advance.succ
          have hnewline : Char.utf8Size '\n' = 1 := rfl
          have hlt : rest.length < n := by
            rw [← hn, List.length_append, List.length_cons]
            omega
          rw [hfind]
          simp only
          rw [ih _ hlt hrest rfl, Lexeme.heredocBody_line hline hcloses]
          simp only [closedAt, Text.size_append, Text.size_cons, hnewline]
          congr 2
          omega

theorem At.heredoc? (h : At s i ("<<<".toList ++ r)) : Cursor.heredoc? s i =
    .ok ((Lexeme.heredoc? r).map fun x => Ending.of i x.1) := by
  rw [Cursor.heredoc?, h.heredocOpener?, Lexeme.heredoc?]
  cases hread : Lexeme.HeredocOpener.read? r with
  | none => rfl
  | some x =>
    obtain ⟨opener, body⟩ := x
    rw [← Lexeme.HeredocOpener.read?_append hread] at h
    have hend := @At.heredocEnd _ _ _ opener.label h.advance
    simp only [Option.map_some, bind, Except.bind, hend, ending_enclosed]
    rfl

end Cursor
end PhpImports
