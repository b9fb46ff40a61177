import PhpImports.Proofs.Lexeme.Number
import PhpImports.Proofs.Lexeme.OpenTag

/-!
# Texts that look alike

Layout, block comments and quoted strings show no more than their first character to what is read in
front of them, and of that character only what it announces. So two texts look alike from the left
if they are the same, or the same up to such characters that announce the same. Every look ahead
that reading takes gives the same answer on both, but for the ones that tell line endings from other
blanks.
-/

namespace PhpImports

/-- The characters that layout, comments and quoted strings start with. -/
def covers : List Char := [' ', '\t', '\n', '\r', '\'', '"', '\x60', '/']

namespace Text

/-- What is said of each character of a text is decided on these, not on all that there are. -/
instance decidableForallMem {p : Char → Prop} [DecidablePred p] (s : Text) :
    Decidable (∀ c ∈ s, p c) :=
  List.decidableBAll p s

/-- Up to the end, or up to what these characters hide, the texts are the same. -/
inductive LookAlike : Text → Text → Prop
  | nil : LookAlike [] []
  | cons (c : Char) {s t : Text} (rest : LookAlike s t) : LookAlike (c :: s) (c :: t)
  | cover {c d : Char} {s t : Text} (hc : c ∈ covers) (hd : d ∈ covers)
      (same : Lead.of c = Lead.of d) : LookAlike (c :: s) (d :: t)

/-- The function takes covering characters that announce the same to the same value. -/
def Respects {β : Type} (p : Char → β) : Prop :=
  ∀ c ∈ covers, ∀ d ∈ covers, Lead.of c = Lead.of d → p c = p d

instance {β : Type} [DecidableEq β] (p : Char → β) : Decidable (Respects p) :=
  inferInstanceAs (Decidable (∀ c ∈ covers, ∀ d ∈ covers, Lead.of c = Lead.of d → p c = p d))

namespace LookAlike

theorem symm {s t : Text} (h : LookAlike s t) : LookAlike t s := by
  induction h with
  | nil => exact .nil
  | cons c _ ih => exact .cons c ih
  | cover hc hd hsame => exact .cover hd hc hsame.symm

theorem append_left {s t : Text} (h : LookAlike s t) (p : Text) : LookAlike (p ++ s) (p ++ t) := by
  induction p with
  | nil => exact h
  | cons c p ih => exact .cons c ih

variable {s t : Text}

theorem eq_nil (h : LookAlike [] t) : t = [] := by
  cases h
  rfl

/-- What covers nothing is the same in both texts. -/
theorem append_inv {p : Text} (h : LookAlike (p ++ s) t) (hp : ∀ c ∈ p, c ∉ covers) :
    ∃ t', t = p ++ t' ∧ LookAlike s t' := by
  induction p generalizing t with
  | nil => exact ⟨t, rfl, h⟩
  | cons c p ih =>
    cases h with
    | cons _ hrest =>
      obtain ⟨t', rfl, ht⟩ := ih hrest fun d hd => hp d (List.mem_cons_of_mem c hd)
      exact ⟨t', rfl, ht⟩
    | cover hc => exact absurd hc (hp c List.mem_cons_self)

theorem drop {p : Text} (h : LookAlike s t) (hfront : p <+: s) (hp : ∀ c ∈ p, c ∉ covers) :
    p <+: t ∧ LookAlike (s.drop p.length) (t.drop p.length) := by
  obtain ⟨s', rfl⟩ := hfront
  obtain ⟨t', rfl, ht⟩ := h.append_inv hp
  rw [List.drop_left, List.drop_left]
  exact ⟨⟨t', rfl⟩, ht⟩

theorem map_head? {β : Type} {p : Char → β} (h : LookAlike s t) (hp : Respects p) :
    s.head?.map p = t.head?.map p := by
  cases h with
  | nil => rfl
  | cons c _ => rfl
  | @cover c d s t hc hd hsame =>
    rw [List.head?_cons, List.head?_cons, Option.map_some, Option.map_some, hp c hc d hd hsame]

theorem any_head? {p : Char → Bool} (h : LookAlike s t) (hp : Respects p) :
    s.head?.any p = t.head?.any p := by
  have hmap := h.map_head? hp
  cases hs : s.head? <;> cases ht : t.head? <;> simp_all

theorem all_head? {p : Char → Bool} (h : LookAlike s t) (hp : Respects p) :
    s.head?.all p = t.head?.all p := by
  have hmap := h.map_head? hp
  cases hs : s.head? <;> cases ht : t.head? <;> simp_all

theorem head?_eq_iff {k : Char} (h : LookAlike s t) (hk : Respects fun c => decide (c = k)) :
    s.head? = some k ↔ t.head? = some k := by
  have hany := h.any_head? hk
  cases hs : s.head? <;> cases ht : t.head? <;> simp_all

theorem startsWith {pattern : Text} (h : LookAlike s t) (hp : ∀ c ∈ pattern, c ∉ covers) :
    s.startsWith pattern = t.startsWith pattern := by
  have hstart : ∀ {s t : Text}, LookAlike s t → s.startsWith pattern = true →
      t.startsWith pattern = true := by
    intro s t h hs
    obtain ⟨r, rfl⟩ := startsWith_iff.1 hs
    obtain ⟨r', rfl, -⟩ := h.append_inv hp
    exact startsWith_iff.2 ⟨r', rfl⟩
  exact Bool.eq_iff_iff.2 ⟨hstart h, hstart h.symm⟩

theorem takeWhile {p : Char → Bool} (h : LookAlike s t) (hp : ∀ c ∈ covers, p c = false) :
    s.takeWhile p = t.takeWhile p := by
  induction h with
  | nil => rfl
  | cons c _ ih =>
    rw [List.takeWhile_cons, List.takeWhile_cons, ih]
  | @cover c d s t hc hd _ =>
    rw [List.takeWhile_cons_of_neg (by simp [hp c hc]),
      List.takeWhile_cons_of_neg (by simp [hp d hd])]

theorem startsLabel (h : LookAlike s t) : s.startsLabel = t.startsLabel := by
  rw [startsLabel_eq_any, startsLabel_eq_any]
  exact h.any_head? (by decide)

theorem continuesName (h : LookAlike s t) : s.continuesName = t.continuesName := by
  cases h with
  | nil => rfl
  | cons c hrest => rw [Text.continuesName, Text.continuesName, hrest.startsLabel]
  | @cover c d s t hc hd _ =>
    have hnone : ∀ c ∈ covers, isLabelChar c = false ∧ c ≠ separator := by decide
    rw [Text.continuesName, Text.continuesName, (hnone c hc).1, (hnone d hd).1,
      decide_eq_false (hnone c hc).2, decide_eq_false (hnone d hd).2]
    rfl

/-- A text breaks in front of texts that look alike if it breaks in front of one of them. -/
theorem breakAt {stop : Text → Bool} (hstop : ∀ {s t : Text}, LookAlike s t → stop s = stop t)
    (h : LookAlike s t) {a : Text} (hbreak : Text.breakAt stop (a ++ s) = (a, s)) :
    Text.breakAt stop (a ++ t) = (a, t) := by
  obtain ⟨hend, hbefore⟩ := breakAt_eq_iff.1 hbreak
  refine breakAt_eq_iff.2 ⟨?_, ?_⟩
  · rcases hend with rfl | hend
    · exact Or.inl h.eq_nil
    · exact Or.inr ((hstop h).symm.trans hend)
  · intro x c y hxy
    rw [← hstop (h.append_left y |>.cons c)]
    exact hbefore x c y hxy

end LookAlike
end Text

namespace Lexeme

open Text (LookAlike)

variable {s t : Text}

theorem nameRun_lookAlike (h : LookAlike s t) {n : Text} (hrun : nameRun (n ++ s) = (n, s)) :
    nameRun (n ++ t) = (n, t) :=
  h.breakAt (fun hst => by rw [hst.continuesName]) hrun

/-- A name holds nothing that covers. -/
theorem clear_nameRun {n x : Text} (hrun : nameRun (n ++ x) = (n, x)) : ∀ c ∈ n, c ∉ covers := by
  intro c hc hcover
  obtain ⟨p, q, hsplit⟩ := List.append_of_mem hc
  have hbefore := (Text.breakAt_eq_iff.1 hrun).2 p c q hsplit
  have hnone : ∀ c ∈ covers, isLabelChar c = false ∧ c ≠ separator := by decide
  rw [Text.continuesName, (hnone c hcover).1, decide_eq_false (hnone c hcover).2] at hbefore
  cases hbefore

/-- Numbers hold nothing that covers. -/
theorem not_mem_covers_of_isNumeralChar {c : Char} (h : isNumeralChar c = true) : c ∉ covers := by
  intro hc
  have hnone : ∀ c ∈ covers, isNumeralChar c = false := by decide
  rw [hnone c hc] at h
  cases h

theorem numeralAlike_of_lookAlike (h : LookAlike s t) : NumeralAlike s t := by
  have hstop : ∀ {s t : Text}, LookAlike s t → s.head?.any isNumeralChar = false →
      NumeralAlike s t := by
    intro s t h hs
    refine .stop hs ?_ (h.any_head? (by decide))
    rwa [← h.any_head? (p := isNumeralChar) (by decide)]
  induction h with
  | nil => exact hstop .nil rfl
  | @cons c s t hrest ih =>
    cases hc : isNumeralChar c with
    | true => exact .cons hc ih
    | false => exact hstop (.cons c hrest) hc
  | @cover c d s t hc hd hsame =>
    have hnone : ∀ c ∈ covers, isNumeralChar c = false := by decide
    exact hstop (.cover hc hd hsame) (hnone c hc)

theorem opensLongTag_of_lookAlike (h : LookAlike s t) (hopens : opensLongTag s = true) :
    opensLongTag t = true := by
  obtain ⟨w, r, rfl, hword, hends⟩ := opensLongTag_iff.1 hopens
  have hclear : ∀ c ∈ w, c ∉ covers := by
    intro c hc hcover
    have hlower : c.toLower ∈ "php".toList := by
      rw [← hword]
      exact List.mem_map_of_mem hc
    have hnone : ∀ c ∈ covers, c.toLower ∉ "php".toList := by decide
    exact hnone c hcover hlower
  obtain ⟨t', rfl, hrest⟩ := h.append_inv hclear
  exact opensLongTag_iff.2 ⟨w, t', rfl, hword, (hrest.all_head? (by decide)).symm.trans hends⟩

theorem opensLongTag_lookAlike (h : LookAlike s t) : opensLongTag s = opensLongTag t :=
  Bool.eq_iff_iff.2 ⟨opensLongTag_of_lookAlike h, opensLongTag_of_lookAlike h.symm⟩

theorem isSome_openTag?_lookAlike {shortTags : Bool} (h : LookAlike s t) :
    (openTag? shortTags s).isSome = (openTag? shortTags t).isSome := by
  rw [isSome_openTag?, isSome_openTag?, ← h.startsWith (by decide)]
  cases hmark : s.startsWith "<?".toList with
  | false => rfl
  | true =>
    obtain ⟨r, rfl⟩ := Text.startsWith_iff.1 hmark
    obtain ⟨-, hrest⟩ := h.drop (List.prefix_append _ r) (by decide)
    have hecho := hrest.head?_eq_iff (k := '=') (by decide)
    rw [show "<?".toList.length = 2 from rfl] at hrest hecho
    rw [opensLongTag_lookAlike hrest]
    simp only [hecho]

end Lexeme
end PhpImports
