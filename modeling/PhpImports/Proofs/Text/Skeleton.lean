import PhpImports.Proofs.Cursor.Basic
import PhpImports.Proofs.Text.Break
import PhpImports.Proofs.Text.LineEnding
import Mathlib.Data.List.Basic

/-!
# Texts without their encoding

The skeleton of a text has one and the same character in place of every run of characters beyond
ASCII, so texts that only differ in how such runs are encoded have the same skeleton. What asks for
ASCII characters alone, or takes all others alike, gets the same answer on a text and on its
skeleton; here that is shown for heads, runs, prefixes, infixes and breaks.
-/

namespace PhpImports

open Cursor (IsAscii)

/-- A character beyond ASCII. -/
def isForeign (c : Char) : Bool :=
  128 ≤ c.toNat

/-- What stands in a skeleton for a run of foreign characters. -/
def standIn : Char := 'é'

/-- The class has all foreign characters in it or none. -/
def Blind (p : Char → Bool) : Prop :=
  ∀ c, isForeign c = true → p c = p standIn

theorem isForeign_eq_false_iff {c : Char} : isForeign c = false ↔ c.toNat < 128 := by
  rw [isForeign, decide_eq_false_iff_not, Nat.not_le]

theorem isForeign_standIn : isForeign standIn = true := by decide

theorem ne_of_isForeign {c k : Char} (hc : isForeign c = true)
    (hk : isForeign k = false := by decide) : c ≠ k := by
  rintro rfl
  rw [hk] at hc
  cases hc

theorem blind_of_forall {p : Char → Bool} {b : Bool} (h : ∀ c, isForeign c = true → p c = b) :
    Blind p := by
  intro c hc
  rw [h c hc, h standIn isForeign_standIn]

theorem blind_isForeign : Blind isForeign :=
  blind_of_forall fun _ h => h

/-- A class of ASCII characters has no foreign ones. -/
theorem blind_of_asciiClass {p : Char → Bool} (h : Cursor.AsciiClass p) : Blind p := by
  refine blind_of_forall fun c hc => Bool.eq_false_iff.2 fun hp => ?_
  rw [isForeign_eq_false_iff.2 (h c hp)] at hc
  cases hc

namespace Text

/-- Every run of foreign characters becomes one character. -/
def skeleton : Text → Text
  | [] => []
  | c :: r =>
    if isForeign c then if r.head?.any isForeign then skeleton r else standIn :: skeleton r
    else c :: skeleton r

variable {c : Char} {a b r s w x : Text}

@[simp] theorem skeleton_nil : skeleton [] = [] := rfl

theorem skeleton_ascii (hc : isForeign c = false) (r : Text) :
    skeleton (c :: r) = c :: skeleton r := by
  rw [skeleton, hc, if_neg Bool.false_ne_true]

theorem skeleton_inside (hc : isForeign c = true) (hr : r.head?.any isForeign = true) :
    skeleton (c :: r) = skeleton r := by
  rw [skeleton, if_pos hc, if_pos hr]

theorem skeleton_last (hc : isForeign c = true) (hr : r.head?.any isForeign = false) :
    skeleton (c :: r) = standIn :: skeleton r := by
  rw [skeleton, if_pos hc, hr, if_neg Bool.false_ne_true]

theorem any_head?_skeleton {p : Char → Bool} (hp : Blind p) (s : Text) :
    (skeleton s).head?.any p = s.head?.any p := by
  induction s with
  | nil => rfl
  | cons c r ih =>
    cases hc : isForeign c with
    | false => rw [skeleton_ascii hc]; rfl
    | true =>
      cases hr : r.head?.any isForeign with
      | false =>
        rw [skeleton_last hc hr]
        exact (hp c hc).symm
      | true =>
        rw [skeleton_inside hc hr, ih]
        cases r with
        | nil => cases hr
        | cons d r => exact (hp d hr).trans (hp c hc).symm

theorem all_head?_skeleton {p : Char → Bool} (hp : Blind p) (s : Text) :
    (skeleton s).head?.all p = s.head?.all p := by
  have hany := any_head?_skeleton (p := fun c => !p c) (fun c hc => congrArg not (hp c hc)) s
  have hall : ∀ o : Option Char, o.all p = !o.any fun c => !p c := by
    intro o
    cases o <;> simp
  rw [hall, hall, hany]

theorem skeleton_eq_nil : skeleton s = [] ↔ s = [] := by
  have hhead := any_head?_skeleton (p := fun _ => true) (fun _ _ => rfl) s
  cases s with
  | nil => simp
  | cons c r =>
    constructor
    · intro hnil
      rw [hnil] at hhead
      cases hhead
    · rintro ⟨⟩

/-- No run of foreign characters goes on from one text to the other. -/
def Apart (a b : Text) : Prop :=
  a.getLast?.any isForeign = true → b.head?.any isForeign = false

theorem skeleton_append (hapart : Apart a b) : skeleton (a ++ b) = skeleton a ++ skeleton b := by
  induction a with
  | nil => rfl
  | cons c a ih =>
    cases a with
    | nil =>
      cases hc : isForeign c with
      | false => rw [skeleton_ascii hc, List.singleton_append, skeleton_ascii hc]; rfl
      | true => rw [List.singleton_append, skeleton_last hc (hapart hc), skeleton_last hc rfl]; rfl
    | cons d a =>
      rw [Apart, List.getLast?_cons_cons] at hapart
      have hrest := ih hapart
      have hhead : (d :: a ++ b).head?.any isForeign = (d :: a).head?.any isForeign := rfl
      rw [List.cons_append]
      cases hc : isForeign c with
      | false => rw [skeleton_ascii hc, skeleton_ascii hc, hrest]; rfl
      | true =>
        cases hr : (d :: a).head?.any isForeign with
        | false => rw [skeleton_last hc (hhead.trans hr), skeleton_last hc hr, hrest]; rfl
        | true => rw [skeleton_inside hc (hhead.trans hr), skeleton_inside hc hr, hrest]

theorem skeleton_cons_iff (hc : isForeign c = false) :
    skeleton s = c :: r ↔ ∃ s', s = c :: s' ∧ skeleton s' = r := by
  constructor
  · intro hs
    cases s with
    | nil => cases hs
    | cons d s =>
      have hd : isForeign d = false := by
        have hhead := any_head?_skeleton blind_isForeign (d :: s)
        rw [hs] at hhead
        exact hhead.symm.trans hc
      rw [skeleton_ascii hd] at hs
      obtain ⟨rfl, hrest⟩ := List.cons.inj hs
      exact ⟨s, rfl, hrest⟩
  · rintro ⟨s, rfl, rfl⟩
    exact skeleton_ascii hc s

theorem skeleton_append_ascii (hw : IsAscii w) (s : Text) :
    skeleton (w ++ s) = w ++ skeleton s := by
  induction w with
  | nil => rfl
  | cons c w ih =>
    have hc := isForeign_eq_false_iff.2 (hw c List.mem_cons_self)
    rw [List.cons_append, skeleton_ascii hc, ih hw.tail]
    rfl

theorem skeleton_of_ascii (hw : IsAscii w) : skeleton w = w := by
  have happend := skeleton_append_ascii hw []
  rwa [List.append_nil, skeleton_nil, List.append_nil] at happend

/-- ASCII characters at the head of a skeleton are those of the text. -/
theorem exists_of_skeleton_eq_append (hw : IsAscii w) (hs : skeleton s = w ++ r) :
    ∃ s', s = w ++ s' ∧ skeleton s' = r := by
  induction w generalizing s with
  | nil => exact ⟨s, rfl, hs⟩
  | cons c w ih =>
    have hc := isForeign_eq_false_iff.2 (hw c List.mem_cons_self)
    obtain ⟨s', rfl, hrest⟩ := (skeleton_cons_iff hc).1 hs
    obtain ⟨s, rfl, hr⟩ := ih hw.tail hrest
    exact ⟨s, rfl, hr⟩

theorem startsWith_skeleton (hw : IsAscii w) (s : Text) :
    (skeleton s).startsWith w = s.startsWith w := by
  rw [Bool.eq_iff_iff, startsWith_iff, startsWith_iff]
  constructor
  · rintro ⟨r, hr⟩
    obtain ⟨s', rfl, -⟩ := exists_of_skeleton_eq_append hw hr
    exact ⟨s', rfl⟩
  · rintro ⟨r, rfl⟩
    exact ⟨skeleton r, skeleton_append_ascii hw r⟩

theorem head?_skeleton_iff (hc : isForeign c = false) (s : Text) :
    (skeleton s).head? = some c ↔ s.head? = some c := by
  rw [List.head?_eq_some_iff, List.head?_eq_some_iff]
  constructor
  · rintro ⟨r, hr⟩
    obtain ⟨s', rfl, -⟩ := (skeleton_cons_iff hc).1 hr
    exact ⟨s', rfl⟩
  · rintro ⟨r, rfl⟩
    exact ⟨_, skeleton_ascii hc r⟩

/-- Where something is left of a skeleton, it is the skeleton of what is left of the text. -/
theorem exists_suffix_of_skeleton (h : skeleton s = a ++ c :: r) :
    ∃ a' c' r', s = a' ++ c' :: r' ∧ skeleton (c' :: r') = c :: r := by
  induction s generalizing a with
  | nil => cases a <;> cases h
  | cons d s ih =>
    cases a with
    | nil => exact ⟨[], d, s, rfl, h⟩
    | cons e a =>
      have hrest : ∃ a', skeleton s = a' ++ c :: r := by
        cases hd : isForeign d with
        | false =>
          rw [skeleton_ascii hd] at h
          exact ⟨a, (List.cons.inj h).2⟩
        | true =>
          cases hs : s.head?.any isForeign with
          | false =>
            rw [skeleton_last hd hs] at h
            exact ⟨a, (List.cons.inj h).2⟩
          | true =>
            rw [skeleton_inside hd hs] at h
            exact ⟨e :: a, h⟩
      obtain ⟨a', ha'⟩ := hrest
      obtain ⟨b, c', r', rfl, hr'⟩ := ih ha'
      exact ⟨d :: b, c', r', rfl, hr'⟩

theorem mem_skeleton_iff (hc : isForeign c = false) : c ∈ skeleton s ↔ c ∈ s := by
  constructor
  · intro hmem
    obtain ⟨a, r, hsplit⟩ := List.append_of_mem hmem
    obtain ⟨a', c', r', rfl, hrest⟩ := exists_suffix_of_skeleton hsplit
    obtain ⟨r'', hr'', -⟩ := (skeleton_cons_iff hc).1 hrest
    rw [hr'']
    exact List.mem_append_right _ List.mem_cons_self
  · intro hmem
    obtain ⟨a, r, rfl⟩ := List.append_of_mem hmem
    have hsplit : skeleton (a ++ c :: r) = skeleton a ++ skeleton (c :: r) :=
      skeleton_append fun _ => hc
    rw [hsplit, skeleton_ascii hc]
    exact List.mem_append_right _ List.mem_cons_self

theorem forall_mem_skeleton {p : Char → Bool} (hp : Blind p) (h : ∀ c ∈ s, p c = true) :
    ∀ c ∈ skeleton s, p c = true := by
  intro c hmem
  obtain ⟨a, r, hsplit⟩ := List.append_of_mem hmem
  obtain ⟨a', c', r', rfl, hrest⟩ := exists_suffix_of_skeleton hsplit
  have hhead := any_head?_skeleton hp (c' :: r')
  rw [hrest] at hhead
  exact hhead.trans (h c' (List.mem_append_right _ List.mem_cons_self))

theorem isInfix_skeleton_iff (hw : IsAscii w) : w <:+: skeleton s ↔ w <:+: s := by
  cases w with
  | nil => exact ⟨fun _ => List.nil_infix, fun _ => List.nil_infix⟩
  | cons c w =>
    have hc := isForeign_eq_false_iff.2 (hw c List.mem_cons_self)
    constructor
    · rintro ⟨a, r, hsplit⟩
      rw [List.append_assoc] at hsplit
      obtain ⟨a', c', r', rfl, hrest⟩ := exists_suffix_of_skeleton hsplit.symm
      obtain ⟨t, ht, -⟩ := exists_of_skeleton_eq_append hw hrest
      exact ⟨a', t, by rw [List.append_assoc, ht]⟩
    · rintro ⟨a, r, rfl⟩
      have hsplit : skeleton (a ++ (c :: w ++ r)) = skeleton a ++ skeleton (c :: w ++ r) :=
        skeleton_append fun _ => hc
      rw [List.append_assoc, hsplit, skeleton_append_ascii hw]
      exact ⟨skeleton a, skeleton r, by rw [List.append_assoc]⟩

/-- What is not ASCII in a text is not ASCII in its skeleton. -/
theorem skeleton_eq_ascii_iff (hw : IsAscii w) : skeleton s = w ↔ s = w := by
  constructor
  · intro hs
    obtain ⟨s', rfl, hnil⟩ := exists_of_skeleton_eq_append hw (hs.trans (List.append_nil w).symm)
    rw [skeleton_eq_nil.1 hnil, List.append_nil]
  · rintro rfl
    exact skeleton_of_ascii hw

theorem toLower_skeleton_iff (hw : IsAscii w) : (skeleton s).toLower = w ↔ s.toLower = w := by
  constructor
  · intro hlower
    have hascii : IsAscii (skeleton s) := Cursor.isAscii_of_toLower (hlower ▸ hw)
    rwa [← (skeleton_eq_ascii_iff hascii).1 rfl] at hlower
  · intro hlower
    have hascii : IsAscii s := Cursor.isAscii_of_toLower (hlower ▸ hw)
    rwa [skeleton_of_ascii hascii]

/-- A run of a class that takes all foreign characters alike. -/
theorem takeWhile_skeleton {p : Char → Bool} (hp : Blind p) (s : Text) :
    (skeleton s).takeWhile p = skeleton (s.takeWhile p) ∧
      (skeleton s).dropWhile p = skeleton (s.dropWhile p) := by
  have hrun : ∀ c ∈ s.takeWhile p, p c = true := List.all_eq_true.1 List.all_takeWhile
  have hends := head?_dropWhile_any p s
  have hapart : Apart (s.takeWhile p) (s.dropWhile p) := by
    intro hlast
    obtain ⟨c, hc, hforeign⟩ := (Option.any_eq_true _ _).1 hlast
    have hstandIn := (hp c hforeign).symm.trans (hrun c (List.mem_of_getLast? hc))
    rw [Bool.eq_false_iff]
    intro hhead
    obtain ⟨d, hd, hforeign'⟩ := (Option.any_eq_true _ _).1 hhead
    rw [hd, Option.any_some, hp d hforeign', hstandIn] at hends
    cases hends
  have hsplit : skeleton s = skeleton (s.takeWhile p) ++ skeleton (s.dropWhile p) := by
    rw [← skeleton_append hapart, List.takeWhile_append_dropWhile]
  rw [hsplit]
  exact takeWhile_append_eq (forall_mem_skeleton hp hrun)
    ((any_head?_skeleton hp _).trans hends)

/-- What tells foreign characters from nothing at all gives the same on a skeleton. -/
theorem congr_skeleton {β : Type} {f : Text → β}
    (hforeign : ∀ c r, isForeign c = true → f (c :: r) = f [])
    (hascii : ∀ c r, isForeign c = false → f (c :: skeleton r) = f (c :: r)) (s : Text) :
    f (skeleton s) = f s := by
  cases s with
  | nil => rfl
  | cons c r =>
    cases hc : isForeign c with
    | false => rw [skeleton_ascii hc, hascii c r hc]
    | true =>
      have hhead := any_head?_skeleton blind_isForeign (c :: r)
      cases hs : skeleton (c :: r) with
      | nil => exact (hforeign c r hc).symm
      | cons d t =>
        rw [hs] at hhead
        rw [hforeign d t (hhead.trans hc), hforeign c r hc]

/-- A break stays where it is if it is not inside of a run. -/
theorem breakAt_skeleton {stop : Text → Bool} (hstop : ∀ s, stop (skeleton s) = stop s)
    (hapart : Apart a x) (h : breakAt stop (a ++ x) = (a, x)) :
    breakAt stop (skeleton a ++ skeleton x) = (skeleton a, skeleton x) := by
  obtain ⟨hend, hbefore⟩ := breakAt_eq_iff.1 h
  refine breakAt_eq_iff.2 ⟨?_, ?_⟩
  · rw [skeleton_eq_nil, hstop]
    exact hend
  · intro p c q hsplit
    obtain ⟨p', c', q', rfl, hrest⟩ := exists_suffix_of_skeleton hsplit
    have hrestApart : Apart (c' :: q') x := by
      rwa [Apart, List.getLast?_append_of_ne_nil _ (List.cons_ne_nil c' q')] at hapart
    rw [← List.cons_append, ← hrest, ← skeleton_append hrestApart, hstop]
    exact hbefore p' c' q' rfl

theorem isForeign_unify (c : Char) : isForeign (if c = '\r' then '\n' else c) = isForeign c := by
  split
  · next hc =>
    subst hc
    decide
  · rfl

/-- Line endings are unified around the runs. -/
theorem skeleton_unifyLineEndings (s : Text) :
    (unifyLineEndings s).skeleton = unifyLineEndings s.skeleton := by
  induction s using crlfInduction with
  | nil => rfl
  | crlf s ih =>
    rw [unifyLineEndings_crlf, skeleton_ascii (by decide), skeleton_ascii (by decide),
      skeleton_ascii (by decide), unifyLineEndings_crlf, ih]
  | char c s hc ih =>
    rw [unifyLineEndings_cons c s hc]
    cases hforeign : isForeign c with
    | false =>
      have hc' : c = '\r' → s.skeleton.head? ≠ some '\n' := fun hcr hlf =>
        hc hcr ((head?_skeleton_iff (by decide) s).1 hlf)
      rw [skeleton_ascii ((isForeign_unify c).trans hforeign), skeleton_ascii hforeign,
        unifyLineEndings_cons c _ hc', ih]
    | true =>
      have hhead : (unifyLineEndings s).head?.any isForeign = s.head?.any isForeign := by
        rw [head?_unifyLineEndings]
        cases s.head? with
        | none => rfl
        | some d => exact isForeign_unify d
      rw [if_neg (ne_of_isForeign hforeign), skeleton, if_pos hforeign, hhead, ih, skeleton,
        if_pos hforeign]
      split
      · rfl
      · rw [unifyLineEndings_cons standIn _ fun hcr => absurd hcr (by decide),
          if_neg (by decide)]

end Text
end PhpImports
