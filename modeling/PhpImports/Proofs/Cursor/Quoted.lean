import PhpImports.Lexeme.Quoted
import PhpImports.Proofs.Cursor.Basic

/-!
# Quoted strings at byte offsets

Here a string and the blocks in it are skipped by two functions that call each other, and a counter
of 32 bits takes the place of the stack of open braces. In a text of fewer than 2 ^ 32 bytes the
counter stays in range, since every open brace is a byte before the offset, and both end where the
stack runs empty (`At.skipQuoted`).
-/

namespace PhpImports

namespace Lexeme.Enclosure

theorem next_append (c : Char) (r : Text) (e : Enclosure) (opened outer : List Enclosure) :
    next c r (e :: opened ++ outer) = next c r (e :: opened) ++ outer := by
  cases e with
  | escape => rfl
  | quote q =>
    simp only [List.cons_append, next]
    split
    · rfl
    · split
      · rfl
      · split <;> rfl
  | block =>
    simp only [List.cons_append, next]
    split
    · rfl
    · split
      · rfl
      · split <;> rfl

/-- What is open on top is closed first, and then what is open below it. -/
theorem close_append_opened (opened outer : List Enclosure) (s : Text) :
    close (opened ++ outer) s = match close opened s with
      | (t, none) => (t, none)
      | (t, some r) => (t ++ (close outer r).1, (close outer r).2) := by
  induction s generalizing opened with
  | nil => cases opened <;> simp [close_nil, close_cons_nil]
  | cons c r ih =>
    cases opened with
    | nil => simp [close_nil]
    | cons e opened =>
      rw [List.cons_append, close_cons_cons, ← List.cons_append, next_append, ih, close_cons_cons]
      rcases close (next c r (e :: opened)) r with ⟨t, _ | r'⟩ <;> rfl

end Lexeme.Enclosure

namespace Cursor

open Lexeme (Enclosure)

/-- The width of the character that a backslash before `i` hides, if there is one. -/
def escapedWidth (s : Text) (i : Nat) : Nat :=
  ((charAt? s i).map Char.utf8Size).getD 0

theorem lt_length_of_byteAt? {s : Text} {i : Nat} (h : ¬ byteAt? s i = none) :
    i < s.bytes.length := by
  by_contra hi
  exact h (List.getElem?_eq_none (Nat.le_of_not_lt hi))

theorem width_pos (s : Text) (i : Nat) : 0 < width s i := by
  rw [width]
  cases charAt? s i with
  | none => exact Nat.one_pos
  | some c => exact Char.utf8Size_pos c

mutual

/-- Past the string whose opening quote is before `i`; whether its closing quote was found. -/
def skipQuoted (s : Text) (quote : Char) (i : Nat) : Result (Bool × Nat) :=
  if _ : byteAt? s i = none then .ok (false, i)
  else if peek s i (· = '\\') then skipQuoted s quote (i + 1 + escapedWidth s (i + 1))
  else if peek s i (· = '{') && quote ≠ '\'' && peek s (i + 1) (· = '$') then do
    let (closed, j) ← skipBlock s 1 (i + 1)
    if closed then
      if _ : i < j then skipQuoted s quote j else .error .idle
    else .ok (false, j)
  else if peek s i (· = quote) then .ok (true, i + 1)
  else skipQuoted s quote (i + width s i)
termination_by s.bytes.length - i
decreasing_by
  all_goals
    have hi : i < s.bytes.length := lt_length_of_byteAt? (by assumption)
    have hw := width_pos s i
    omega

/-- Past the block of which `depth` braces are open before `i`; whether all of them were closed. -/
def skipBlock (s : Text) (depth : UInt32) (i : Nat) : Result (Bool × Nat) :=
  if _ : byteAt? s i = none then .ok (false, i)
  else if peek s i (· = '{') then
    if depth.toNat + 1 = UInt32.size then .error .depthOverflow else skipBlock s (depth + 1) (i + 1)
  else if peek s i (· = '}') then
    if depth = 0 then .error .depthUnderflow
    else if depth - 1 = 0 then .ok (true, i + 1)
    else skipBlock s (depth - 1) (i + 1)
  else if peek s i (fun c => c = '\'' || c = '"') then do
    let (closed, j) ← skipQuoted s (if peek s i (· = '"') then '"' else '\'') (i + 1)
    if closed then
      if _ : i < j then skipBlock s depth j else .error .idle
    else .ok (false, j)
  else skipBlock s depth (i + width s i)
termination_by s.bytes.length - i
decreasing_by
  all_goals
    have hi : i < s.bytes.length := lt_length_of_byteAt? (by assumption)
    have hw := width_pos s i
    omega

end

/-- Whether everything was closed, and the offset behind what was read from `i` on. -/
def closedAt (i : Nat) (x : Text × Option Text) : Bool × Nat :=
  (x.2.isSome, i + x.1.size)

theorem ending_enclosed (kind : TokenKind) (fault : Cause) (opener : Text) (i : Nat)
    (x : Text × Option Text) : Ending.of i (Lexeme.enclosed kind fault opener x).1 =
      ⟨kind, (closedAt (i + opener.size) x).2,
        if (closedAt (i + opener.size) x).1 then none else some fault⟩ := by
  rcases x with ⟨body, _ | rest⟩
  · simp [Ending.of, Lexeme.enclosed, closedAt, Nat.add_assoc]
  · simp [Ending.of, Lexeme.enclosed, closedAt, Nat.add_assoc]

/-- The spec of both functions where `r` is left. -/
structure Skips (r : Text) : Prop where
  quoted : ∀ {s : Text} {i : Nat}, At s i r → s.size < UInt32.size →
    ∀ quote : Char, quote.toNat < 128 →
      skipQuoted s quote i = .ok (closedAt i (Enclosure.close [.quote quote] r))
  block : ∀ {s : Text} {i : Nat}, At s i r → s.size < UInt32.size →
    ∀ depth : UInt32, 0 < depth.toNat → depth.toNat ≤ i →
      skipBlock s depth i =
        .ok (closedAt i (Enclosure.close (List.replicate depth.toNat .block) r))

theorem closedAt_cons {i : Nat} {c : Char} (e : Enclosure) (outer : List Enclosure) (r : Text) :
    closedAt i (Enclosure.close (e :: outer) (c :: r)) =
      closedAt (i + c.utf8Size) (Enclosure.close (Enclosure.next c r (e :: outer)) r) := by
  rw [Enclosure.close_cons_cons]
  simp only [closedAt, Text.size_cons, Nat.add_assoc]

/-- Two enclosures in a row are skipped one after the other. -/
theorem closedAt_append {i : Nat} (opened outer : List Enclosure) (r : Text) :
    closedAt i (Enclosure.close (opened ++ outer) r) =
      match Enclosure.close opened r with
      | (t, none) => (false, i + t.size)
      | (t, some r') => closedAt (i + t.size) (Enclosure.close outer r') := by
  rw [Enclosure.close_append_opened]
  rcases Enclosure.close opened r with ⟨t, _ | r'⟩
  · rfl
  · simp only [closedAt, Text.size_append, Nat.add_assoc]

theorem toNat_add_one {depth : UInt32} {n : Nat} (hn : depth.toNat = n)
    (hlt : n + 1 < UInt32.size) : (depth + 1).toNat = n + 1 := by
  rw [UInt32.toNat_add, hn]
  exact Nat.mod_eq_of_lt hlt

theorem toNat_sub_one {depth : UInt32} {n : Nat} (hn : depth.toNat = n + 1) :
    (depth - 1).toNat = n := by
  have hle : (1 : UInt32) ≤ depth := by
    rw [UInt32.le_iff_toNat_le, hn]
    exact Nat.le_add_left 1 n
  rw [UInt32.toNat_sub_of_le _ _ hle, hn]
  rfl

section Step

variable {s r : Text} {i : Nat} {c : Char}

theorem At.byteAt?_ne_none (h : At s i (c :: r)) : ¬ byteAt? s i = none := by
  rw [h.byteAt?_eq_none]
  exact List.cons_ne_nil c r

theorem At.escapedWidth (h : At s i (c :: r)) : Cursor.escapedWidth s i = c.utf8Size := by
  rw [Cursor.escapedWidth, h.charAt?]
  rfl

theorem At.escapedWidth_nil (h : At s i []) : Cursor.escapedWidth s i = 0 := by
  rw [Cursor.escapedWidth, h.charAt?]
  rfl

/-- After what was closed comes what is left. -/
theorem At.close {opened : List Enclosure} {t r' : Text} (h : At s i r)
    (hclose : Enclosure.close opened r = (t, some r')) :
    At s (i + t.size) r' ∧ r'.length ≤ r.length := by
  have happend := Enclosure.close_append opened r
  rw [hclose] at happend
  simp only [Option.getD_some] at happend
  subst happend
  exact ⟨h.advance, by simp⟩

/-- What is open on top is skipped first, and then what is open below it. -/
theorem skip_opened {opened outer : List Enclosure} {inner : Result (Bool × Nat)}
    {rest : Nat → Result (Bool × Nat)}
    (hinner : inner = .ok (closedAt (i + 1) (Enclosure.close opened r)))
    (hrest : ∀ t r', Enclosure.close opened r = (t, some r') →
      rest (i + 1 + t.size) = .ok (closedAt (i + 1 + t.size) (Enclosure.close outer r'))) :
    (do
      let (closed, j) ← inner
      if closed then
        if _ : i < j then rest j else .error .idle
      else .ok (false, j)) = .ok (closedAt (i + 1) (Enclosure.close (opened ++ outer) r)) := by
  rw [closedAt_append, hinner]
  rcases hclose : Enclosure.close opened r with ⟨t, _ | r'⟩
  · rfl
  · have hlt : i < i + 1 + t.size := by omega
    have hclosed : closedAt (i + 1) (t, some r') = (true, i + 1 + t.size) := rfl
    simp only [hclosed, bind, Except.bind, if_true]
    rw [dif_pos hlt]
    exact hrest t r' hclose

theorem skipQuoted_of_shorter (ih : ∀ r' : Text, r'.length < r.length → Skips r') (h : At s i r)
    (hs : s.size < UInt32.size) {quote : Char} (hq : quote.toNat < 128) :
    skipQuoted s quote i = .ok (closedAt i (Enclosure.close [.quote quote] r)) := by
  rw [skipQuoted]
  cases r with
  | nil =>
    rw [dif_pos (h.byteAt?_eq_none.2 rfl)]
    rfl
  | cons c r =>
    have ihr : Skips r := ih r (by simp)
    rw [dif_neg h.byteAt?_ne_none, h.peek_eq (k := '\\'), h.peek_eq (k := '{'), h.peek_eq hq,
      closedAt_cons]
    simp only [List.head?_cons, Option.some.injEq, Bool.and_eq_true, decide_eq_true_iff,
      Enclosure.next]
    by_cases hescape : c = '\\'
    · subst hescape
      have hr : At s (i + 1) r := h.succ
      rw [if_pos rfl, if_pos rfl]
      cases r with
      | nil =>
        rw [hr.escapedWidth_nil]
        exact ihr.quoted hr hs quote hq
      | cons d r =>
        have ihr' : Skips r := ih r (by simp only [List.length_cons]; omega)
        rw [hr.escapedWidth, closedAt_cons]
        exact ihr'.quoted hr.next hs quote hq
    · rw [if_neg hescape, if_neg hescape]
      by_cases hbrace : c = '{'
      · subst hbrace
        have hr : At s (i + 1) r := h.succ
        rw [hr.peek_eq (k := '$')]
        simp only [true_and, decide_eq_true_iff]
        split
        · have hblock := ihr.block hr hs 1 (by decide) (Nat.le_add_left 1 i)
          refine @skip_opened _ _ [.block] [.quote quote] _ _ hblock ?_
          intro t r' hclose
          obtain ⟨hr', hlen⟩ := hr.close hclose
          have ihr' : Skips r' := ih r' (by simp only [List.length_cons]; omega)
          exact ihr'.quoted hr' hs quote hq
        · split
          · rw [Enclosure.close_nil]
            rfl
          · rw [h.width]
            exact ihr.quoted h.next hs quote hq
      · simp only [hbrace, false_and, if_false]
        split
        · next hquote =>
          subst hquote
          rw [Enclosure.close_nil, utf8Size_ascii hq]
          rfl
        · rw [h.width]
          exact ihr.quoted h.next hs quote hq

/-- The open braces are all before the offset, so one more can be counted. -/
theorem skipBlock_of_shorter (ih : ∀ r' : Text, r'.length < r.length → Skips r') (h : At s i r)
    (hs : s.size < UInt32.size) {depth : UInt32} (hpos : 0 < depth.toNat)
    (hdepth : depth.toNat ≤ i) :
    skipBlock s depth i =
      .ok (closedAt i (Enclosure.close (List.replicate depth.toNat .block) r)) := by
  obtain ⟨n, hn⟩ : ∃ n, depth.toNat = n + 1 := ⟨depth.toNat - 1, by omega⟩
  have hsize := h.size
  have hpred := toNat_sub_one hn
  rw [skipBlock, hn, List.replicate_succ]
  cases r with
  | nil =>
    rw [dif_pos (h.byteAt?_eq_none.2 rfl)]
    rfl
  | cons c r =>
    have ihr : Skips r := ih r (by simp)
    have hquotes : AsciiClass (fun c => c = '\'' || c = '"') := by
      intro c hc
      rcases (by simpa using hc : c = '\'' ∨ c = '"') with rfl | rfl <;> decide
    rw [dif_neg h.byteAt?_ne_none, h.peek_eq (k := '{'), h.peek_eq (k := '}'), h.peek hquotes,
      h.peek_eq (k := '"'), closedAt_cons]
    simp only [List.head?_cons, Option.some.injEq, decide_eq_true_iff, Enclosure.next,
      Option.any_some, Bool.or_eq_true]
    by_cases hopen : c = '{'
    · subst hopen
      have hr : At s (i + 1) r := h.succ
      have hwidth : '{'.utf8Size = 1 := rfl
      rw [Text.size_cons] at hsize
      have hsucc := toNat_add_one hn (by omega)
      have hblock := ihr.block hr hs (depth + 1) (by omega) (by omega)
      rw [hsucc, List.replicate_succ, List.replicate_succ] at hblock
      rw [if_pos rfl, if_pos rfl, if_neg (by omega)]
      exact hblock
    · rw [if_neg hopen, if_neg hopen]
      by_cases hclose : c = '}'
      · subst hclose
        have hr : At s (i + 1) r := h.succ
        have hne : ¬ depth = 0 := by
          rintro rfl
          cases hn
        rw [if_pos rfl, if_pos rfl, if_neg hne]
        by_cases hlast : depth - 1 = 0
        · obtain rfl : n = 0 := by rw [← hpred, hlast]; rfl
          rw [if_pos hlast, List.replicate_zero, Enclosure.close_nil]
          rfl
        · have hn0 : 0 < n := by
            rw [← hpred]
            exact Nat.pos_of_ne_zero fun h0 => hlast (UInt32.toNat_inj.1 h0)
          have hblock := ihr.block hr hs (depth - 1) (by omega) (by omega)
          rw [hpred] at hblock
          rw [if_neg hlast]
          exact hblock
      · rw [if_neg hclose, if_neg hclose]
        by_cases hquote : c = '\'' ∨ c = '"'
        · have hq : (if c = '"' then '"' else '\'') = c := by
            rcases hquote with rfl | rfl <;> rfl
          have hascii : c.toNat < 128 := by rcases hquote with rfl | rfl <;> decide
          have hr : At s (i + 1) r := h.succ hascii
          have hinner := ihr.quoted hr hs c hascii
          rw [if_pos hquote, if_pos hquote, hq, utf8Size_ascii hascii]
          refine @skip_opened _ _ [.quote c] (.block :: List.replicate n .block) _ _ hinner ?_
          intro t r' hclosed
          obtain ⟨hr', hlen⟩ := hr.close hclosed
          have ihr' : Skips r' := ih r' (by simp only [List.length_cons]; omega)
          have hblock := ihr'.block hr' hs depth hpos (by omega)
          rw [hn, List.replicate_succ] at hblock
          exact hblock
        · have hblock := ihr.block h.next hs depth hpos (by omega)
          rw [hn, List.replicate_succ] at hblock
          rw [if_neg hquote, if_neg hquote, h.width]
          exact hblock

end Step

/-- Strings and blocks are skipped up to where nothing is open any more. -/
theorem skips (r : Text) : Skips r := by
  suffices hall : ∀ n, ∀ r : Text, r.length = n → Skips r from hall r.length r rfl
  intro n
  induction n using Nat.strongRecOn with
  | ind n ih =>
    rintro r rfl
    have hshorter : ∀ r' : Text, r'.length < r.length → Skips r' :=
      fun r' hr' => ih r'.length hr' r' rfl
    exact ⟨fun h hs _ hq => skipQuoted_of_shorter hshorter h hs hq,
      fun h hs _ hpos hdepth => skipBlock_of_shorter hshorter h hs hpos hdepth⟩

end Cursor
end PhpImports
