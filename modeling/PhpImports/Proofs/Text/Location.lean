import PhpImports.Proofs.Cursor.Basic
import PhpImports.Proofs.Text.Break
import PhpImports.Text.Location
import Mathlib.Order.Bounds.Defs

/-!
# Locations and lines

An offset cuts a text into the characters that end at or before it and the rest (`Reaches`). The
location of the offset is read off the first part: its line feeds are the line and the length of its
last line is the column (`locate_eq`). The line with this number is the last line of the first part
with the first line of the rest (`getElem?_lines`), and going on in the text is going on to a later
line or to a later column of the same one (`precedes_of_append`). Lines and columns are printed as
decimals, which have no line feed in them and give back their numbers (`ofNat_injective`).
-/

namespace PhpImports

namespace Text

/-- What stands behind the last line feed. -/
def lastLine (s : Text) : Text :=
  (s.reverse.takeWhile (· ≠ '\n')).reverse

/-- All lines that a line feed ends. -/
def endedLines (s : Text) : Text :=
  (s.reverse.dropWhile (· ≠ '\n')).reverse

/-- What stands before the first line feed. -/
def firstLine (s : Text) : Text :=
  s.takeWhile (· ≠ '\n')

theorem size_replicate (n : Nat) {c : Char} (hc : c.toNat < 128) :
    size (List.replicate n c) = n := by
  have hascii : Cursor.IsAscii (List.replicate n c) := fun d hd =>
    List.eq_of_mem_replicate hd ▸ hc
  rw [Cursor.size_ascii hascii, List.length_replicate]

/-- With `r` behind it, `a` is all that fits into so many bytes. -/
structure Reaches (bytes : Nat) (a r : Text) : Prop where
  le : a.size ≤ bytes
  lt : ∀ c x, r = c :: x → bytes < a.size + c.utf8Size

variable {s a r : Text} {bytes : Nat}

theorem exists_reaches (bytes : Nat) (s : Text) : ∃ a r, s = a ++ r ∧ Reaches bytes a r := by
  induction s generalizing bytes with
  | nil => exact ⟨[], [], rfl, Nat.zero_le _, fun c x h => by cases h⟩
  | cons c s ih =>
    by_cases hc : c.utf8Size ≤ bytes
    · obtain ⟨a, r, rfl, hle, hlt⟩ := ih (bytes - c.utf8Size)
      refine ⟨c :: a, r, rfl, ?_, fun d x hr => ?_⟩
      · rw [size_cons]
        omega
      · have hd := hlt d x hr
        rw [size_cons]
        omega
    · refine ⟨[], c :: s, rfl, Nat.zero_le _, fun d x hr => ?_⟩
      obtain ⟨rfl, -⟩ := List.cons.inj hr
      rw [size_nil]
      omega

/-- Past the end of a text nothing more fits. -/
theorem Reaches.clamp (h : Reaches bytes a r) : Reaches (min bytes (size (a ++ r))) a r := by
  refine ⟨?_, fun c x hr => ?_⟩
  · have hle := h.le
    rw [size_append]
    omega
  · have hlt := h.lt c x hr
    omega

/-- Where the characters that fit end is the last place between characters that fits. -/
theorem Reaches.isGreatest (h : Reaches bytes a r) :
    IsGreatest {i | (∃ x, Cursor.At (a ++ r) i x) ∧ i ≤ bytes} a.size := by
  refine ⟨⟨⟨r, a, rfl, rfl⟩, h.le⟩, ?_⟩
  rintro i ⟨⟨x, b, hb, rfl⟩, hle⟩
  rcases List.append_eq_append_iff.1 hb with ⟨d, rfl, hr⟩ | ⟨d, rfl, -⟩
  · cases d with
    | nil => simp
    | cons c d =>
      have hlt := h.lt c (d ++ x) hr
      rw [size_append, size_cons] at hle ⊢
      omega
  · rw [size_append]
    exact Nat.le_add_right _ _

theorem endedLines_append_lastLine (s : Text) : s.endedLines ++ s.lastLine = s := by
  rw [endedLines, lastLine, ← List.reverse_append, List.takeWhile_append_dropWhile,
    List.reverse_reverse]

theorem notMem_firstLine (s : Text) : '\n' ∉ s.firstLine :=
  notMem_takeWhile rfl

theorem notMem_lastLine (s : Text) : '\n' ∉ s.lastLine :=
  fun hmem => notMem_firstLine s.reverse (List.mem_reverse.1 hmem)

theorem endedLines_cases (s : Text) : s.endedLines = [] ∨ ∃ b, s.endedLines = b ++ ['\n'] := by
  cases h : s.reverse.dropWhile (· ≠ '\n') with
  | nil => exact Or.inl (by rw [endedLines, h]; rfl)
  | cons c b =>
    have hc := List.head?_dropWhile_not (· ≠ '\n') s.reverse
    rw [h] at hc
    obtain rfl : c = '\n' := by simpa using hc
    exact Or.inr ⟨b.reverse, by rw [endedLines, h, List.reverse_cons]⟩

theorem firstLine_cons {c : Char} (hc : c ≠ '\n') (s : Text) :
    firstLine (c :: s) = c :: s.firstLine :=
  List.takeWhile_cons_of_pos (decide_eq_true hc)

theorem firstLine_cases (s : Text) : s = s.firstLine ∨ ∃ b, s = s.firstLine ++ '\n' :: b := by
  have hsplit : s.firstLine ++ s.dropWhile (· ≠ '\n') = s := List.takeWhile_append_dropWhile
  cases h : s.dropWhile (· ≠ '\n') with
  | nil =>
    rw [h, List.append_nil] at hsplit
    exact Or.inl hsplit.symm
  | cons c b =>
    have hc := List.head?_dropWhile_not (· ≠ '\n') s
    rw [h] at hc
    obtain rfl : c = '\n' := by simpa using hc
    exact Or.inr ⟨b, by rw [← h, hsplit]⟩

theorem lastLine_append_lf (s : Text) : lastLine (s ++ ['\n']) = [] := by
  rw [lastLine, List.reverse_append]
  rfl

theorem lastLine_append (a : Text) {d : Text} (h : '\n' ∉ d) :
    lastLine (a ++ d) = a.lastLine ++ d := by
  have hall : ∀ c ∈ d.reverse, decide (c ≠ '\n') = true := by
    intro c hc
    exact decide_eq_true fun hlf => h (hlf ▸ List.mem_reverse.1 hc)
  rw [lastLine, List.reverse_append, List.takeWhile_append_of_pos hall, List.reverse_append,
    List.reverse_reverse]
  rfl

theorem count_lastLine (s : Text) : s.count '\n' = s.endedLines.count '\n' := by
  have hnone := List.count_eq_zero_of_not_mem s.notMem_lastLine
  have hcount := congrArg (List.count '\n') s.endedLines_append_lastLine
  rw [List.count_append, hnone, Nat.add_zero] at hcount
  exact hcount.symm

theorem length_lines (s : Text) : s.lines.length = s.count '\n' + 1 := by
  induction s with
  | nil => rfl
  | cons c s ih =>
    rw [lines] at ih ⊢
    rw [List.splitOn_cons_eq_if_modifyHead]
    by_cases hc : c = '\n'
    · subst hc
      simp [ih]
    · simp [hc, ih]

theorem lines_append_lf (a b : Text) : lines (a ++ '\n' :: b) = a.lines ++ b.lines :=
  List.splitOn_append_cons_self a b

theorem lines_of_notMem (h : '\n' ∉ s) : s.lines = [s] :=
  List.splitOn_eq_singleton h

theorem head?_lines (s : Text) : s.lines.head? = some s.firstLine := by
  induction s with
  | nil => rfl
  | cons c s ih =>
    rw [lines] at ih ⊢
    rw [List.splitOn_cons_eq_if_modifyHead, firstLine]
    by_cases hc : c = '\n'
    · simp [hc]
    · simp [hc, ih, firstLine]

theorem firstLine_append (a : Text) (h : '\n' ∉ a) (r : Text) :
    firstLine (a ++ r) = a ++ r.firstLine := by
  refine List.takeWhile_append_of_pos fun c hc => ?_
  exact decide_eq_true fun hlf => h (hlf ▸ hc)

/-- The line in which the first part of a text ends. -/
theorem getElem?_lines (a r : Text) :
    (lines (a ++ r))[a.count '\n']? = some (a.lastLine ++ r.firstLine) := by
  have hfirst : (lines (a.lastLine ++ r))[0]? = some (a.lastLine ++ r.firstLine) := by
    rw [← List.head?_eq_getElem?, head?_lines, firstLine_append _ a.notMem_lastLine]
  have hsplit : a ++ r = a.endedLines ++ (a.lastLine ++ r) := by
    rw [← List.append_assoc, endedLines_append_lastLine]
  rw [hsplit, count_lastLine]
  rcases a.endedLines_cases with hnil | ⟨b, hb⟩
  · rw [hnil]
    exact hfirst
  · have hlength := b.length_lines
    have hindex : List.count '\n' (b ++ ['\n']) = b.lines.length := by
      rw [List.count_append, hlength]
      rfl
    rw [hb, hindex, List.append_assoc, List.singleton_append, lines_append_lf,
      List.getElem?_append_right (Nat.le_refl _), Nat.sub_self, hfirst]

end Text

namespace Location

/-- The location between the two parts of a text. -/
def between (a r : Text) : Location :=
  ⟨a.count '\n', a.lastLine.length, a.lastLine ++ r⟩

/-- In an earlier line, or in the same one in an earlier column. -/
def Precedes (l m : Location) : Prop :=
  l.line < m.line ∨ l.line = m.line ∧ l.column < m.column

variable {a r : Text}

theorem between_after (a r : Text) (c : Char) :
    (between a (c :: r)).after c r = between (a ++ [c]) r := by
  by_cases hc : c = '\n'
  · subst hc
    rw [after, if_pos rfl, between, between, Text.lastLine_append_lf, List.count_append]
    rfl
  · have hnot : '\n' ∉ [c] := by simpa using Ne.symm hc
    have hnone : List.count '\n' [c] = 0 := List.count_eq_zero_of_not_mem hnot
    rw [after, if_neg hc, between, between, Text.lastLine_append a hnot, List.count_append, hnone,
      List.length_append, List.append_assoc]
    rfl

theorem advance_between (b : Text) {bytes : Nat} (h : Text.Reaches bytes a r) :
    (between b (a ++ r)).advance bytes (a ++ r) = between (b ++ a) r := by
  induction a generalizing b bytes with
  | nil =>
    rw [List.nil_append, List.append_nil]
    cases r with
    | nil => rfl
    | cons c r =>
      have hlt := h.lt c r rfl
      rw [Text.size_nil] at hlt
      rw [advance, if_neg (by omega)]
  | cons c a ih =>
    obtain ⟨hle, hlt⟩ := h
    rw [Text.size_cons] at hle
    have hrest : Text.Reaches (bytes - c.utf8Size) a r := by
      refine ⟨by omega, fun d x hr => ?_⟩
      have hd := hlt d x hr
      rw [Text.size_cons] at hd
      omega
    rw [List.cons_append, advance, if_pos (by omega), between_after, ih _ hrest,
      List.append_assoc, List.singleton_append]

/-- A location further on in a text. -/
theorem precedes_of_append (a r : Text) {d : Text} (hd : d ≠ []) :
    (between a (d ++ r)).Precedes (between (a ++ d) r) := by
  have hcount : List.count '\n' (a ++ d) = a.count '\n' + d.count '\n' := List.count_append
  by_cases hlf : '\n' ∈ d
  · have hpos := List.count_pos_iff.2 hlf
    exact Or.inl (by simp only [between]; omega)
  · have hnone := List.count_eq_zero_of_not_mem hlf
    have hpos := List.length_pos_iff.2 hd
    refine Or.inr ⟨by simp only [between]; omega, ?_⟩
    simp only [between, Text.lastLine_append a hlf, List.length_append]
    omega

theorem lineText_between (a r : Text) : (between a r).lineText = a.lastLine ++ r.firstLine :=
  Text.firstLine_append _ a.notMem_lastLine r

end Location

theorem Text.locate_eq {a r : Text} {bytes : Nat} (h : Reaches bytes a r) :
    Text.locate (a ++ r) bytes = .between a r :=
  Location.advance_between [] h

theorem Text.isDigit_of_mem_ofNat {n : Nat} : ∀ c ∈ Text.ofNat n, c.isDigit = true :=
  fun _ => Nat.isDigit_of_mem_toDigits (by decide) (by decide)

theorem Text.notMem_ofNat {c : Char} (hc : c.isDigit = false) (n : Nat) : c ∉ Text.ofNat n := by
  intro hmem
  have hdigit := isDigit_of_mem_ofNat c hmem
  rw [hc] at hdigit
  cases hdigit

theorem Text.lf_notMem_ofNat (n : Nat) : '\n' ∉ Text.ofNat n :=
  notMem_ofNat rfl n

/-- The number that decimal digits stand for. -/
def Text.digitsValue (s : Text) : Nat :=
  Nat.ofDigitChars 10 s 0

theorem Text.digitsValue_ofNat (n : Nat) : digitsValue (Text.ofNat n) = n :=
  Nat.ofDigitChars_toDigits (by decide) (by decide)

theorem Text.ofNat_injective {m n : Nat} (h : Text.ofNat m = Text.ofNat n) : m = n := by
  have hread := congrArg digitsValue h
  rwa [digitsValue_ofNat, digitsValue_ofNat] at hread

end PhpImports
