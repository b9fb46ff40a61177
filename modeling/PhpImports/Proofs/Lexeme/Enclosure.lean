import PhpImports.Proofs.Lexeme.Quoted
import Mathlib.Data.List.Basic

/-!
# What closes a quoted string

A string goes on over escaped characters, over whole blocks and over all characters of no meaning,
up to its own quote; a block goes on over whole blocks and strings, up to its own brace. These are
the texts that reading with a stack of what is open reads to their end (`close_iff`), so a string
without a closing quote is one of which no beginning is such a text (`open_iff`).
-/

namespace PhpImports.Lexeme.Enclosure

/-- The text behind the opening of an enclosure ends with the character that closes it. -/
inductive Closes : Enclosure → Text → Prop
  | hidden (c : Char) : Closes .escape [c]
  | quote (q : Char) : Closes (.quote q) [q]
  | escape {q : Char} {h b : Text} (hidden : Closes .escape h) (rest : Closes (.quote q) b) :
      Closes (.quote q) ('\\' :: (h ++ b))
  | block {q : Char} {m b : Text} (plain : q ≠ '\'') (inner : Closes .block m)
      (dollar : m.head? = some '$') (rest : Closes (.quote q) b) :
      Closes (.quote q) ('{' :: (m ++ b))
  | char {q c : Char} {b : Text} (other : c ≠ '\\' ∧ c ≠ q)
      (unblocked : ¬ (c = '{' ∧ q ≠ '\'' ∧ b.head? = some '$')) (rest : Closes (.quote q) b) :
      Closes (.quote q) (c :: b)
  | brace : Closes .block ['}']
  | nested {m b : Text} (inner : Closes .block m) (rest : Closes .block b) :
      Closes .block ('{' :: (m ++ b))
  | string {q : Char} {m b : Text} (mark : q = '\'' ∨ q = '"') (inner : Closes (.quote q) m)
      (rest : Closes .block b) : Closes .block (q :: (m ++ b))
  | blockChar {c : Char} {b : Text} (other : c ≠ '{' ∧ c ≠ '}' ∧ c ≠ '\'' ∧ c ≠ '"')
      (rest : Closes .block b) : Closes .block (c :: b)

/-- One enclosure after the other is closed. -/
inductive ClosesAll : List Enclosure → Text → Prop
  | nil : ClosesAll [] []
  | cons {e : Enclosure} {outer : List Enclosure} {b r : Text} (first : Closes e b)
      (rest : ClosesAll outer r) : ClosesAll (e :: outer) (b ++ r)

variable {e : Enclosure} {outer : List Enclosure} {b : Text}

theorem Closes.ne_nil (h : Closes e b) : b ≠ [] := by
  cases h <;> exact List.cons_ne_nil _ _

/-- A string ends with its quote. -/
theorem Closes.getLast? {q : Char} (h : Closes (.quote q) b) : b.getLast? = some q := by
  generalize he : Enclosure.quote q = e at h
  induction h with
  | quote q' =>
    cases he
    rfl
  | escape _ hrest _ ih =>
    rw [← List.cons_append, List.getLast?_append_of_ne_nil _ hrest.ne_nil]
    exact ih he
  | block _ _ _ hrest _ ih =>
    rw [← List.cons_append, List.getLast?_append_of_ne_nil _ hrest.ne_nil]
    exact ih he
  | char _ _ hrest ih =>
    rw [← List.singleton_append, List.getLast?_append_of_ne_nil _ hrest.ne_nil]
    exact ih he
  | hidden | brace | nested | string | blockChar => cases he

theorem Closes.getLast?_cons {q : Char} (h : Closes (.quote q) b) (c : Char) :
    (c :: b).getLast? = some q := by
  rw [← List.singleton_append, List.getLast?_append_of_ne_nil _ h.ne_nil, h.getLast?]

theorem closesAll_nil_iff : ClosesAll [] b ↔ b = [] := by
  constructor
  · rintro ⟨⟩
    rfl
  · rintro rfl
    exact .nil

theorem closesAll_cons_iff :
    ClosesAll (e :: outer) b ↔ ∃ m r, b = m ++ r ∧ Closes e m ∧ ClosesAll outer r := by
  constructor
  · rintro (_ | ⟨hfirst, hrest⟩)
    exact ⟨_, _, rfl, hfirst, hrest⟩
  · rintro ⟨m, r, rfl, hfirst, hrest⟩
    exact .cons hfirst hrest

theorem head?_append_of_closes {m : Text} (h : Closes e m) (r : Text) :
    (m ++ r).head? = m.head? := by
  obtain ⟨c, m, rfl⟩ := List.exists_cons_of_ne_nil h.ne_nil
  rfl

/-- What is open after a character is what the rest of a closing text closes. -/
theorem ClosesAll.next {c : Char} (hnested : IsNested (e :: outer))
    (h : ClosesAll (e :: outer) (c :: b)) : ClosesAll (next c b (e :: outer)) b := by
  obtain ⟨m, r, hsplit, hfirst, hrest⟩ := closesAll_cons_iff.1 h
  cases hfirst with
  | hidden d =>
    obtain ⟨rfl, rfl⟩ := List.cons.inj hsplit
    exact hrest
  | quote q =>
    obtain ⟨rfl, rfl⟩ := List.cons.inj hsplit
    have hquote : c ≠ '\\' ∧ c ≠ '{' := by
      rcases hnested.1 with rfl | rfl | rfl <;> decide
    rw [Enclosure.next, if_neg hquote.1, if_neg fun hblock => hquote.2 hblock.1, if_pos rfl]
    exact hrest
  | @escape q hid rest hhidden hquote =>
    rw [List.cons_append] at hsplit
    obtain ⟨rfl, rfl⟩ := List.cons.inj hsplit
    rw [Enclosure.next, if_pos rfl, List.append_assoc]
    exact .cons hhidden (.cons hquote hrest)
  | @block q m rest hplain hinner hdollar hquote =>
    rw [List.cons_append] at hsplit
    obtain ⟨rfl, rfl⟩ := List.cons.inj hsplit
    rw [List.append_assoc, Enclosure.next, if_neg (by decide),
      if_pos ⟨rfl, hplain, by rw [head?_append_of_closes hinner, hdollar]⟩]
    exact .cons hinner (.cons hquote hrest)
  | @char q d rest hother hunblocked hquote =>
    rw [List.cons_append] at hsplit
    obtain ⟨rfl, rfl⟩ := List.cons.inj hsplit
    rw [Enclosure.next, if_neg hother.1, head?_append_of_closes hquote, if_neg hunblocked,
      if_neg hother.2]
    exact .cons hquote hrest
  | brace =>
    obtain ⟨rfl, rfl⟩ := List.cons.inj hsplit
    exact hrest
  | nested hinner hblock =>
    rw [List.cons_append] at hsplit
    obtain ⟨rfl, rfl⟩ := List.cons.inj hsplit
    rw [Enclosure.next, if_pos rfl, List.append_assoc]
    exact .cons hinner (.cons hblock hrest)
  | string hmark hinner hblock =>
    rw [List.cons_append] at hsplit
    obtain ⟨rfl, rfl⟩ := List.cons.inj hsplit
    have hbrace : c ≠ '{' ∧ c ≠ '}' := by rcases hmark with rfl | rfl <;> decide
    rw [Enclosure.next, if_neg hbrace.1, if_neg hbrace.2, if_pos hmark, List.append_assoc]
    exact .cons hinner (.cons hblock hrest)
  | blockChar hother hblock =>
    rw [List.cons_append] at hsplit
    obtain ⟨rfl, rfl⟩ := List.cons.inj hsplit
    obtain ⟨hopen, hclose, hsingle, hdouble⟩ := hother
    rw [Enclosure.next, if_neg hopen, if_neg hclose, if_neg (not_or.2 ⟨hsingle, hdouble⟩)]
    exact .cons hblock hrest

/-- A character in front of a text that closes what is open after it. -/
theorem closesAll_of_next {c : Char} (h : ClosesAll (next c b (e :: outer)) b) :
    ClosesAll (e :: outer) (c :: b) := by
  cases e with
  | escape => exact .cons (.hidden c) h
  | quote q =>
    rw [Enclosure.next] at h
    split at h
    · next hc =>
      subst hc
      obtain ⟨hid, r, rfl, hhidden, h⟩ := closesAll_cons_iff.1 h
      obtain ⟨m, r, rfl, hquote, hrest⟩ := closesAll_cons_iff.1 h
      rw [← List.append_assoc]
      exact .cons (.escape hhidden hquote) hrest
    · next hescape =>
      split at h
      · next hblock =>
        obtain ⟨rfl, hplain, hdollar⟩ := hblock
        obtain ⟨m, r, rfl, hinner, h⟩ := closesAll_cons_iff.1 h
        obtain ⟨m', r, rfl, hquote, hrest⟩ := closesAll_cons_iff.1 h
        rw [head?_append_of_closes hinner] at hdollar
        rw [← List.append_assoc]
        exact .cons (.block hplain hinner hdollar hquote) hrest
      · next hblock =>
        split at h
        · next hc =>
          subst hc
          exact .cons (.quote c) h
        · next hc =>
          obtain ⟨m, r, rfl, hquote, hrest⟩ := closesAll_cons_iff.1 h
          rw [head?_append_of_closes hquote] at hblock
          exact .cons (.char ⟨hescape, hc⟩ hblock hquote) hrest
  | block =>
    rw [Enclosure.next] at h
    split at h
    · next hc =>
      subst hc
      obtain ⟨m, r, rfl, hinner, h⟩ := closesAll_cons_iff.1 h
      obtain ⟨m', r, rfl, hblock, hrest⟩ := closesAll_cons_iff.1 h
      rw [← List.append_assoc]
      exact .cons (.nested hinner hblock) hrest
    · next hopen =>
      split at h
      · next hc =>
        subst hc
        exact .cons .brace h
      · next hclose =>
        split at h
        · next hmark =>
          obtain ⟨m, r, rfl, hinner, h⟩ := closesAll_cons_iff.1 h
          obtain ⟨m', r, rfl, hblock, hrest⟩ := closesAll_cons_iff.1 h
          rw [← List.append_assoc]
          exact .cons (.string hmark hinner hblock) hrest
        · next hmark =>
          obtain ⟨m, r, rfl, hblock, hrest⟩ := closesAll_cons_iff.1 h
          obtain ⟨hsingle, hdouble⟩ := not_or.1 hmark
          exact .cons (.blockChar ⟨hopen, hclose, hsingle, hdouble⟩ hblock) hrest

/-- Reading stops at the end of a text exactly if it closes all that is open. -/
theorem close_iff_closesAll {opened : List Enclosure} (hnested : IsNested opened) :
    close opened b = (b, some []) ↔ ClosesAll opened b := by
  induction b generalizing opened with
  | nil =>
    cases opened with
    | nil => simp [close_nil, closesAll_nil_iff]
    | cons e outer =>
      rw [close_cons_nil, closesAll_cons_iff]
      constructor
      · intro h
        cases h
      · rintro ⟨m, r, hsplit, hfirst, -⟩
        exact absurd (List.append_eq_nil_iff.1 hsplit.symm).1 hfirst.ne_nil
  | cons c b ih =>
    cases opened with
    | nil => simp [close_nil, closesAll_nil_iff]
    | cons e outer =>
      have hstep : close (e :: outer) (c :: b) = (c :: b, some []) ↔
          close (next c b (e :: outer)) b = (b, some []) := by
        rw [close_cons_cons, Prod.mk.injEq, List.cons.injEq, Prod.ext_iff]
        simp
      rw [hstep, ih (hnested.next c b)]
      exact ⟨closesAll_of_next, ClosesAll.next hnested⟩

/-- One enclosure is closed at the end of a text exactly if the text closes it. -/
theorem close_singleton_iff (hnested : IsNested [e]) :
    close [e] b = (b, some []) ↔ Closes e b := by
  rw [close_iff_closesAll hnested, closesAll_cons_iff]
  constructor
  · rintro ⟨m, r, rfl, hcloses, hrest⟩
    obtain rfl := closesAll_nil_iff.1 hrest
    rwa [List.append_nil]
  · intro hcloses
    exact ⟨b, [], (List.append_nil b).symm, hcloses, .nil⟩

theorem close_of_closes (hnested : IsNested [e]) {m : Text} (h : Closes e m) (x : Text) :
    close [e] (m ++ x) = (m, some x) :=
  close_append_right hnested ((close_singleton_iff hnested).2 h) x

/-- At most one beginning of a text closes an enclosure. -/
theorem Closes.unique (hnested : IsNested [e]) {m m' : Text} (h : Closes e m) (h' : Closes e m')
    (hm : m <+: b) (hm' : m' <+: b) : m = m' := by
  obtain ⟨x, rfl⟩ := hm
  obtain ⟨x', hx'⟩ := hm'
  have hclose := close_of_closes hnested h x
  rw [← hx', close_of_closes hnested h' x'] at hclose
  exact (Prod.mk.inj hclose).1.symm

/-- Reading ends behind the beginning of a text that closes the enclosure, or else with the text. -/
theorem close_cases (hnested : IsNested [e]) (s : Text) :
    (∃ m x, m ++ x = s ∧ Closes e m ∧ close [e] s = (m, some x)) ∨
      (∀ m, m <+: s → ¬ Closes e m) ∧ close [e] s = (s, none) := by
  have happend := close_append [e] s
  cases hclose : close [e] s with
  | mk m rest =>
    rw [hclose] at happend
    cases rest with
    | some x =>
      have hcloses := (close_singleton_iff hnested).1 (close_left hnested hclose)
      exact Or.inl ⟨m, x, happend, hcloses, rfl⟩
    | none =>
      obtain rfl : m = s := by simpa using happend
      refine Or.inr ⟨?_, rfl⟩
      rintro m' ⟨x, hx⟩ hcloses
      have hclosed := close_of_closes hnested hcloses x
      rw [hx, hclose] at hclosed
      cases hclosed

theorem close_iff {q : Char} (hquote : IsQuote q) :
    close [.quote q] b = (b, some []) ↔ Closes (.quote q) b :=
  close_singleton_iff (isNested_quote hquote)

/-- A string is open at the end of a text exactly if nothing in it closes the string. -/
theorem open_iff {q : Char} (hquote : IsQuote q) :
    close [.quote q] b = (b, none) ↔ ∀ m, m <+: b → ¬ Closes (.quote q) m := by
  rcases close_cases (isNested_quote hquote) b with
    ⟨m, x, hsplit, hcloses, hclose⟩ | ⟨hnone, hclose⟩
  · constructor
    · intro hopen
      rw [hopen] at hclose
      cases hclose
    · exact fun hnone => absurd hcloses (hnone m ⟨x, hsplit⟩)
  · exact ⟨fun _ => hnone, fun _ => hclose⟩

end PhpImports.Lexeme.Enclosure
