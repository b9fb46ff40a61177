import PhpImports.Lexeme.Comment
import PhpImports.Proofs.Cursor.Quoted

/-!
# Comments at byte offsets

A line comment is left character by character, a block comment by one search from its third byte
on. Both end where the comments of a text end.
-/

namespace PhpImports.Cursor

/-- Past the line comment that goes on at `i`. -/
def skipLineComment (s : Text) (i : Nat) : Result Nat :=
  if _ : byteAt? s i = none then .ok i
  else if peek s i (fun c => c = '\n' || c = '\r') then .ok i
  else do
    if ← sees s i "?>".toList then return i
    skipLineComment s (i + width s i)
termination_by s.bytes.length - i
decreasing_by
  have hi : i < s.bytes.length := lt_length_of_byteAt? (by assumption)
  have hw := width_pos s i
  omega

/-- The block comment whose opening mark is at `i`. -/
def blockComment (s : Text) (i : Nat) : Result Ending := do
  let documents := (← sees s i "/**".toList) && peek s (i + 3) isBlank
  let kind : TokenKind := if documents then .docComment else .comment
  let body ← textFrom s (i + 2)
  match find? "*/".toList body with
  | some n => return ⟨kind, i + 2 + n + 2, none⟩
  | none => return ⟨kind, s.size, some .unterminatedBlockComment⟩

theorem asciiClass_isBlank : AsciiClass isBlank := by
  intro c hc
  simp only [isBlank, isIndent, Bool.or_eq_true, decide_eq_true_iff] at hc
  rcases hc with ((rfl | rfl) | rfl) | rfl <;> decide

variable {s r : Text} {i : Nat}

theorem At.skipLineComment (h : At s i r) :
    Cursor.skipLineComment s i = .ok (i + (Lexeme.lineComment r).1.text.size) := by
  rw [show (Lexeme.lineComment r).1.text = (Text.breakAt Lexeme.endsLineComment r).1 from rfl]
  induction r generalizing i with
  | nil =>
    rw [Cursor.skipLineComment, dif_pos (h.byteAt?_eq_none.2 rfl)]
    rfl
  | cons c r ih =>
    rw [Cursor.skipLineComment, dif_neg h.byteAt?_ne_none, h.peek asciiClass_pair,
      h.sees (by decide), Text.breakAt_cons]
    by_cases hline : (decide (c = '\n') || decide (c = '\r')) = true
    · have hstop : Lexeme.endsLineComment (c :: r) = true := by simp [Lexeme.endsLineComment, hline]
      rw [if_pos (by simpa using hline), if_pos hstop]
      rfl
    · have hstop : Lexeme.endsLineComment (c :: r) = Text.startsWith (c :: r) "?>".toList := by
        rw [Lexeme.endsLineComment, Bool.eq_false_iff.2 hline, Bool.false_or]
        cases r <;> simp
      rw [if_neg (by simpa using hline), hstop]
      cases hclose : Text.startsWith (c :: r) "?>".toList with
      | true => rfl
      | false =>
        simp only [bind, Except.bind, Bool.false_eq_true, if_false]
        rw [h.width, ih h.next, Text.size_cons, Nat.add_assoc]

/-- The comment documents what comes after it if its body starts with a star and a blank. -/
theorem At.isDocBody (h : At s i r) :
    (Text.startsWith ("/*".toList ++ r) "/**".toList && Cursor.peek s (i + 1) isBlank) =
      Lexeme.isDocBody r := by
  rw [h.peek_add 1 isBlank]
  cases r with
  | nil => rfl
  | cons c r =>
    by_cases hc : c = '*'
    · subst hc
      have hr : At ('*' :: r) 1 r := (At.start _).succ
      rw [hr.peek asciiClass_isBlank]
      cases r <;> simp [Lexeme.isDocBody]
    · have hstar : Text.startsWith ("/*".toList ++ c :: r) "/**".toList = false := by
        simp [hc]
      rw [hstar, Bool.false_and, Lexeme.isDocBody.eq_def]
      split
      · next heq => exact absurd (List.cons.inj heq).1 hc
      · rfl

theorem At.blockComment (h : At s i ("/*".toList ++ r)) :
    Cursor.blockComment s i = .ok (Ending.of i (Lexeme.blockComment r).1) := by
  have hbody : At s (i + 2) r := h.advance
  have hsize := hbody.size
  have hdoc : (Text.startsWith ("/*".toList ++ r) "/**".toList && Cursor.peek s (i + 3) isBlank) =
      Lexeme.isDocBody r := hbody.isDocBody
  have happend := Text.breakAt_append (Text.startsWith · "*/".toList) r
  have hstop := Text.breakAt_stop (Text.startsWith · "*/".toList) r
  rw [Cursor.blockComment, h.sees (by decide), hbody.textFrom]
  simp only [bind, Except.bind, hdoc]
  rw [Lexeme.blockComment, Lexeme.blockBody, Cursor.find?]
  rcases hbreak : Text.breakAt (Text.startsWith · "*/".toList) r with ⟨before, rest⟩
  rw [hbreak] at happend hstop
  have hopener : Text.size "/*".toList = 2 := rfl
  by_cases hrest : rest = []
  · subst hrest
    rw [List.append_nil] at happend
    subst happend
    have hend : s.size = i + Text.size ("/*".toList ++ before) := by
      rw [hsize, Text.size_append, hopener, Nat.add_assoc]
    simp only [if_true, List.take_nil, List.append_nil, Lexeme.enclosed, Ending.of]
    rw [hend]
    rfl
  · obtain ⟨after, rfl⟩ := Text.startsWith_iff.1 (hstop.resolve_left hrest)
    have hclosing : Text.size "*/".toList = 2 := rfl
    have hend : i + 2 + before.size + 2 =
        i + Text.size ("/*".toList ++ (before ++ ("*/".toList ++ after).take 2)) := by
      rw [show ("*/".toList ++ after).take 2 = "*/".toList from rfl, Text.size_append,
        Text.size_append, hopener, hclosing]
      omega
    simp only [if_neg hrest, Lexeme.enclosed, Ending.of]
    rw [hend]
    rfl

end PhpImports.Cursor
