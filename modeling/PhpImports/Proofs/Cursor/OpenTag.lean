import PhpImports.Lexeme.OpenTag
import PhpImports.Proofs.Cursor.Comment
import PhpImports.Proofs.Text.Case

/-!
# Open tags at byte offsets

Outside code every byte is looked at, those inside a character too. None of those is a less-than
sign, so the tag that is found is the first one that starts at a character.
-/

namespace PhpImports.Cursor

/-- The bytes from `i` on are those of the lower-case pattern, in whatever case, and then any. -/
def readsFolded (s : Text) (i : Nat) : List Char → Bool
  | [] => true
  | k :: ks => peek s i (fun c => c.toLower = k) && readsFolded s (i + 1) ks

/-- The kind and the length of the open tag at `i`, which must not be past the end. -/
def openTagAt? (shortTags : Bool) (s : Text) (i : Nat) : Result (Option (TokenKind × Nat)) :=
  let short := if shortTags then some (.openTag, 2) else none
  if s.size < i then .error .outOfRange
  else if reads s i "<?=".toList then .ok (some (.openTagWithEcho, 3))
  else if readsFolded s i "<?php".toList then
    if byteAt? s (i + 5) = none then .ok (some (.openTag, 5))
    else if peek s (i + 5) (· = '\r') && peek s (i + 6) (· = '\n') then .ok (some (.openTag, 7))
    else if peek s (i + 5) isBlank then .ok (some (.openTag, 6))
    else .ok short
  else if reads s i "<?".toList then .ok short
  else .ok none

/-- An open tag and where it starts. -/
structure FoundTag where
  start : Nat
  kind : TokenKind
  length : Nat
deriving DecidableEq, Repr

/-- The first open tag from `i` on. -/
def findOpenTag? (shortTags : Bool) (s : Text) (i : Nat) : Result (Option FoundTag) :=
  if _ : byteAt? s i = none then .ok none
  else if peek s i (· = '<') then do
    match ← openTagAt? shortTags s i with
    | some (kind, n) => return some ⟨i, kind, n⟩
    | none => findOpenTag? shortTags s (i + 1)
  else findOpenTag? shortTags s (i + 1)
termination_by s.bytes.length - i
decreasing_by
  all_goals
    have hi : i < s.bytes.length := lt_length_of_byteAt? (by assumption)
    omega

variable {s r : Text} {i : Nat}

theorem At.readsFolded {pattern : List Char} (h : At s i r) (hp : IsAscii pattern) :
    Cursor.readsFolded s i pattern = decide (Text.toLower (r.take pattern.length) = pattern) := by
  induction pattern generalizing i r with
  | nil => simp [Cursor.readsFolded, Text.toLower]
  | cons k ks ih =>
    have hk := asciiClass_toLower (hp k List.mem_cons_self)
    rw [Cursor.readsFolded, h.peek hk]
    cases r with
    | nil => simp [Text.toLower]
    | cons c r =>
      by_cases hc : c.toLower = k
      · have hascii := hk c (decide_eq_true hc)
        rw [ih (h.succ hascii) hp.tail]
        simp [Text.toLower, hc]
      · simp [Text.toLower, hc]

theorem toLower_take_longTag (r : Text) :
    Text.toLower (r.take 5) = "<?php".toList ↔
      ∃ t, r = '<' :: '?' :: t ∧ Text.toLower (t.take 3) = "php".toList := by
  rw [show "<?php".toList = ['<', '?', 'p', 'h', 'p'] from rfl,
    show "php".toList = ['p', 'h', 'p'] from rfl]
  constructor
  · intro h
    rcases r with _ | ⟨c, _ | ⟨d, t⟩⟩
    · cases h
    · simp [Text.toLower] at h
    · simp only [List.take_succ_cons, Text.toLower, List.map_cons, List.cons.injEq] at h
      obtain ⟨hc, hd, ht⟩ := h
      rw [toLower_eq_iff (by decide)] at hc hd
      exact ⟨t, by rw [hc, hd], ht⟩
  · rintro ⟨t, rfl, ht⟩
    simp only [List.take_succ_cons, Text.toLower, List.map_cons, List.cons.injEq]
    exact ⟨rfl, rfl, ht⟩

/-- What comes after an ASCII word, which may be spelt in any case. -/
theorem At.dropWord {word : Text} (h : At s i r) (hword : Text.toLower (r.take word.length) = word)
    (hp : IsAscii word) : At s (i + word.length) (r.drop word.length) := by
  induction word generalizing i r with
  | nil => exact h
  | cons k ks ih =>
    cases r with
    | nil => cases hword
    | cons c r =>
      simp only [List.length_cons, List.take_succ_cons, Text.toLower, List.map_cons,
        List.cons.injEq] at hword
      have hc := asciiClass_toLower (hp k List.mem_cons_self) c (decide_eq_true hword.1)
      have hrest := ih (h.succ hc) hword.2 hp.tail
      rw [List.length_cons, List.drop_succ_cons, Nat.add_comm ks.length, ← Nat.add_assoc]
      exact hrest

theorem openTag?_eq_none {shortTags : Bool} (hmark : ¬ ∃ t, r = '<' :: '?' :: t) :
    Lexeme.openTag? shortTags r = none := by
  rw [Lexeme.openTag?.eq_def]
  split
  · next t => exact absurd ⟨t, rfl⟩ hmark
  · rfl

/-- No tag is read where the mark of every tag is missing. -/
theorem At.openTagAt?_of_no_mark {shortTags : Bool} (h : At s i r)
    (hmark : ¬ ∃ t, r = '<' :: '?' :: t) : Cursor.openTagAt? shortTags s i = .ok none := by
  have hsize := h.size
  have hshort : Text.startsWith r "<?".toList = false := by
    rw [Bool.eq_false_iff]
    intro hstart
    obtain ⟨t, rfl⟩ := Text.startsWith_iff.1 hstart
    exact hmark ⟨t, rfl⟩
  have hecho : Text.startsWith r "<?=".toList = false := by
    rw [Bool.eq_false_iff]
    intro hstart
    obtain ⟨t, rfl⟩ := Text.startsWith_iff.1 hstart
    exact hmark ⟨'=' :: t, rfl⟩
  have hlong : decide (Text.toLower (r.take 5) = "<?php".toList) = false := by
    rw [decide_eq_false_iff_not, toLower_take_longTag]
    rintro ⟨t, rfl, -⟩
    exact hmark ⟨t, rfl⟩
  have hlength : "<?php".toList.length = 5 := rfl
  rw [Cursor.openTagAt?, if_neg (by omega), h.reads (by decide), h.reads (by decide),
    h.readsFolded (by decide), hlength, hshort, hecho, hlong]
  rfl

/-- Where the long tag has been read, the next two bytes decide on its length. -/
theorem At.longTagEnd (short : Option (TokenKind × Nat)) : At s i r →
    (if byteAt? s i = none then .ok (some (.openTag, 5))
      else if Cursor.peek s i (· = '\r') && Cursor.peek s (i + 1) (· = '\n') then
        .ok (some (.openTag, 7))
      else if Cursor.peek s i isBlank then .ok (some (.openTag, 6))
      else .ok short : Result (Option (TokenKind × Nat))) = .ok (match r with
        | [] => some (.openTag, 5)
        | '\r' :: '\n' :: _ => some (.openTag, 7)
        | c :: _ => if isBlank c then some (.openTag, 6) else short) := by
  intro h
  rcases r with _ | ⟨c, r⟩
  · rw [if_pos (h.byteAt?_eq_none.2 rfl)]
  · rw [if_neg h.byteAt?_ne_none, h.peek_eq (k := '\r'), h.peek asciiClass_isBlank]
    by_cases hcr : c = '\r'
    · subst hcr
      have hr : At s (i + 1) r := h.succ
      rw [hr.peek_eq (k := '\n')]
      rcases r with _ | ⟨d, r⟩
      · rfl
      · by_cases hlf : d = '\n'
        · subst hlf
          rfl
        · simp [hlf, isBlank]
    · by_cases hblank : isBlank c = true
      · simp [hcr, hblank]
      · simp [hcr, hblank]

theorem At.openTagAt? {shortTags : Bool} (h : At s i r) :
    Cursor.openTagAt? shortTags s i = .ok (Lexeme.openTag? shortTags r) := by
  by_cases hmark : ∃ t, r = '<' :: '?' :: t
  · obtain ⟨t, rfl⟩ := hmark
    have hsize := h.size
    have hshort : Text.startsWith ('<' :: '?' :: t) "<?".toList = true := by simp
    have hecho : Text.startsWith ('<' :: '?' :: t) "<?=".toList = decide (t.head? = some '=') := by
      cases t <;> simp
    have hlong : decide (Text.toLower (('<' :: '?' :: t).take 5) = "<?php".toList) =
        decide (Text.toLower (t.take 3) = "php".toList) := by
      rw [decide_eq_decide, toLower_take_longTag]
      constructor
      · rintro ⟨t', heq, ht⟩
        cases heq
        exact ht
      · intro ht
        exact ⟨t, rfl, ht⟩
    have hlength : "<?php".toList.length = 5 := rfl
    rw [Cursor.openTagAt?, if_neg (by omega), h.reads (by decide), h.reads (by decide),
      h.readsFolded (by decide), hlength, hecho, hlong, hshort]
    simp only [Lexeme.openTag?, decide_eq_true_iff]
    by_cases hequals : t.head? = some '='
    · rw [if_pos hequals, if_pos hequals]
    · rw [if_neg hequals, if_neg hequals]
      by_cases hword : Text.toLower (t.take 3) = "php".toList
      · have hmarks : At s (i + 2) t := h.advance (t := "<?".toList)
        have hword' : Text.toLower (t.take "php".toList.length) = "php".toList := hword
        have htail : At s (i + 5) (t.drop 3) := hmarks.dropWord hword' (by decide)
        rw [if_pos hword, if_pos hword]
        exact At.longTagEnd _ htail
      · rw [if_neg hword, if_neg hword]
        rfl
  · rw [h.openTagAt?_of_no_mark hmark, openTag?_eq_none hmark]

/-- The characters of an open tag are one byte each. -/
theorem At.openTag? {shortTags : Bool} {kind : TokenKind} {n : Nat} (h : At s i r)
    (htag : Lexeme.openTag? shortTags r = some (kind, n)) : At s (i + n) (r.drop n) := by
  rw [Lexeme.openTag?.eq_def] at htag
  split at htag
  · next t =>
    have hmarks : At s (i + 2) t := h.advance (t := "<?".toList)
    have hshort : ∀ {x}, (if shortTags = true then some (TokenKind.openTag, 2) else none) = some x →
        At s (i + x.2) (('<' :: '?' :: t).drop x.2) := by
      intro x hx
      split at hx
      · cases hx
        exact hmarks
      · cases hx
    simp only at htag
    split at htag
    · next hequals =>
      obtain ⟨u, rfl⟩ := List.head?_eq_some_iff.1 hequals
      cases htag
      exact hmarks.succ
    · split at htag
      · next hword =>
        have hword' : Text.toLower (t.take "php".toList.length) = "php".toList := hword
        have htail : At s (i + 5) (t.drop 3) := hmarks.dropWord hword' (by decide)
        have hdrop : ∀ k, ('<' :: '?' :: t).drop (5 + k) = (t.drop 3).drop k := by
          intro k
          rw [List.drop_drop, show 5 + k = 3 + k + 1 + 1 by omega]
          rfl
        split at htag
        · cases htag
          exact htail
        · next u hu =>
          cases htag
          rw [hdrop 2, hu]
          rw [hu] at htail
          exact htail.succ.succ
        · next d u _ hu =>
          split at htag
          · next hblank =>
            cases htag
            rw [hdrop 1, hu]
            rw [hu] at htail
            exact htail.succ (asciiClass_isBlank d hblank)
          · exact hshort htag
      · exact hshort htag
  · cases htag

/-- There are bytes inside a character, and beyond ASCII none of them is an ASCII character. -/
theorem At.inside {c : Char} {k : Nat} (h : At s i (c :: r)) (hc : 128 ≤ c.toNat)
    (hk : k < c.utf8Size) : ¬ byteAt? s (i + k) = none ∧ ∀ P, Cursor.peek s (i + k) P = false := by
  obtain ⟨a, rfl, rfl⟩ := h
  have hlength : k < (String.utf8EncodeChar c).length := by rwa [String.length_utf8EncodeChar]
  have hbyte : byteAt? (a ++ c :: r) (a.size + k) = some (String.utf8EncodeChar c)[k] := by
    rw [byteAt?_append, byteAt?, Text.bytes_cons, List.getElem?_append_left hlength,
      List.getElem?_eq_getElem hlength]
  have hhigh := le_of_mem_utf8EncodeChar hc _ (List.getElem_mem hlength)
  constructor
  · rw [hbyte]
    exact Option.some_ne_none _
  · intro P
    rw [Cursor.peek, hbyte, Option.any_some, byteIs_high hhigh]

/-- Every byte is one of a character. -/
theorem exists_char_of_lt {t : Text} (h : i < t.size) :
    ∃ (a : Text) (c : Char) (b : Text) (k : Nat),
      t = a ++ c :: b ∧ k < c.utf8Size ∧ i = a.size + k := by
  induction t generalizing i with
  | nil => exact absurd h (Nat.not_lt_zero i)
  | cons c t ih =>
    rw [Text.size_cons] at h
    by_cases hi : i < c.utf8Size
    · exact ⟨[], c, t, i, rfl, hi, (Nat.zero_add i).symm⟩
    · obtain ⟨a, d, b, k, rfl, hk, hrest⟩ := ih (i := i - c.utf8Size) (by omega)
      exact ⟨c :: a, d, b, k, rfl, hk, by rw [Text.size_cons]; omega⟩

/-- Inside a character no tag opens. -/
theorem At.openTagAt?_inside {shortTags : Bool} {c : Char} {k : Nat} (h : At s i (c :: r))
    (hk : k < c.utf8Size) (hpos : 0 < k) : Cursor.openTagAt? shortTags s (i + k) = .ok none := by
  have hwide : 128 ≤ c.toNat := by
    by_contra hascii
    rw [utf8Size_ascii (Nat.lt_of_not_le hascii)] at hk
    omega
  have hpeek := (h.inside hwide hk).2
  have hsize := h.size
  rw [Text.size_cons] at hsize
  have hreads : ∀ p ps, Cursor.reads s (i + k) (p :: ps) = false := by
    intro p ps
    rw [Cursor.reads, hpeek, Bool.false_and]
  have hfolded : ∀ p ps, Cursor.readsFolded s (i + k) (p :: ps) = false := by
    intro p ps
    rw [Cursor.readsFolded, hpeek, Bool.false_and]
  rw [Cursor.openTagAt?, if_neg (by omega), show "<?=".toList = ['<', '?', '='] from rfl,
    show "<?php".toList = ['<', '?', 'p', 'h', 'p'] from rfl,
    show "<?".toList = ['<', '?'] from rfl, hreads, hreads, hfolded]
  rfl

/-- No open tag starts with another character, or inside one. -/
theorem At.findOpenTag?_cons {shortTags : Bool} {c : Char} (h : At s i (c :: r)) (hc : c ≠ '<') :
    Cursor.findOpenTag? shortTags s i = Cursor.findOpenTag? shortTags s (i + c.utf8Size) := by
  by_cases hascii : c.toNat < 128
  · rw [utf8Size_ascii hascii, Cursor.findOpenTag?.eq_def shortTags s i, dif_neg h.byteAt?_ne_none,
      h.peek_eq (k := '<'), if_neg (by simpa using hc)]
  · have hstep : ∀ k ≤ c.utf8Size,
        Cursor.findOpenTag? shortTags s i = Cursor.findOpenTag? shortTags s (i + k) := by
      intro k
      induction k with
      | zero =>
        intro _
        rfl
      | succ k ih =>
        intro hk
        obtain ⟨hbyte, hpeek⟩ := h.inside (Nat.le_of_not_lt hascii) hk
        rw [ih (Nat.le_of_succ_le hk), Cursor.findOpenTag?.eq_def shortTags s (i + k),
          dif_neg hbyte, hpeek, if_neg (by decide), Nat.add_assoc]
    exact hstep c.utf8Size (Nat.le_refl _)

/-- The first open tag of the text that is left at `i`. -/
def foundAt (shortTags : Bool) (i : Nat) (r : Text) : Option FoundTag :=
  let (before, rest) := Text.breakAt (fun t => (Lexeme.openTag? shortTags t).isSome) r
  (Lexeme.openTag? shortTags rest).map fun x => ⟨i + before.size, x.1, x.2⟩

theorem foundAt_of_some {shortTags : Bool} {kind : TokenKind} {n : Nat} (i : Nat)
    (h : Lexeme.openTag? shortTags r = some (kind, n)) :
    foundAt shortTags i r = some ⟨i, kind, n⟩ := by
  cases r with
  | nil => cases h
  | cons c r =>
    rw [foundAt, Text.breakAt_cons, h, if_pos (by rfl)]
    simp only [h, Option.map_some]
    rfl

theorem foundAt_cons {shortTags : Bool} {c : Char} (i : Nat) {r : Text}
    (h : Lexeme.openTag? shortTags (c :: r) = none) :
    foundAt shortTags i (c :: r) = foundAt shortTags (i + c.utf8Size) r := by
  rw [foundAt, foundAt, Text.breakAt_cons, h, if_neg (by decide)]
  simp only [Text.size_cons, Nat.add_assoc]

theorem At.findOpenTag? {shortTags : Bool} (h : At s i r) :
    Cursor.findOpenTag? shortTags s i = .ok (foundAt shortTags i r) := by
  induction r generalizing i with
  | nil =>
    rw [Cursor.findOpenTag?, dif_pos (h.byteAt?_eq_none.2 rfl)]
    rfl
  | cons c r ih =>
    by_cases hc : c = '<'
    · subst hc
      rw [Cursor.findOpenTag?, dif_neg h.byteAt?_ne_none, h.peek_eq (k := '<'),
        if_pos (by simp), h.openTagAt?]
      simp only [bind, Except.bind]
      cases htag : Lexeme.openTag? shortTags ('<' :: r) with
      | none =>
        rw [foundAt_cons i htag]
        exact ih h.succ
      | some x =>
        rw [foundAt_of_some i htag]
        rfl
    · have hnone : Lexeme.openTag? shortTags (c :: r) = none := by
        apply openTag?_eq_none
        rintro ⟨t, heq⟩
        exact hc (List.cons.inj heq).1
      rw [h.findOpenTag?_cons hc, ih h.next, foundAt_cons i hnone]

end PhpImports.Cursor
