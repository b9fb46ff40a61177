import PhpImports.Json
import PhpImports.Proofs.Text.Location
import Mathlib.Data.List.Infix

/-!
# Printed JSON

Values are printed on one line (`lf_notMem_compact`), and no two of them in the same way
(`compact_injective`): where a value ends can be told from its characters, a number's from the
character behind it.
-/

namespace PhpImports

namespace Json

/-- The character that a backslash and this one stand for. -/
def unescape (k : Char) : Char :=
  if k = 'n' then '\n'
  else if k = 'r' then '\r'
  else if k = 't' then '\t'
  else if k = 'b' then '\x08'
  else if k = 'f' then '\x0c'
  else k

def hexValue (k : Char) : Nat :=
  if k.isDigit then k.toNat - 48 else k.toNat - 87

/-- The first character of what a string holds, and what is printed behind it. -/
def readChar : Text → Option (Char × Text)
  | [] => none
  | '\\' :: 'u' :: _ :: _ :: a :: b :: x => some (Char.ofNat (16 * hexValue a + hexValue b), x)
  | '\\' :: k :: x => some (unescape k, x)
  | c :: x => some (c, x)

theorem hexValue_digitChar : ∀ n < 16, hexValue (Nat.digitChar n) = n := by
  decide

theorem digitChar_ne_lf : ∀ n < 16, Nat.digitChar n ≠ '\n' := by
  decide

/-- A character is printed as it is, or as one or six characters behind a backslash. -/
theorem escapeChar_cases (c : Char) :
    (escapeChar c = [c] ∧ c ≠ '"' ∧ c ≠ '\\' ∧ c ≠ '\n') ∨
      (∃ k, escapeChar c = ['\\', k] ∧ k ≠ 'u' ∧ k ≠ '\n' ∧ unescape k = c) ∨
      (escapeChar c = '\\' :: 'u' :: '0' :: '0' :: hexPair c.toNat ∧ c.toNat < 32) := by
  rw [escapeChar]
  split_ifs with hquote hbackslash hlf hcr htab hback hfeed hcontrol
  · exact .inr (.inl ⟨'"', rfl, by decide, by decide, hquote.symm⟩)
  · exact .inr (.inl ⟨'\\', rfl, by decide, by decide, hbackslash.symm⟩)
  · exact .inr (.inl ⟨'n', rfl, by decide, by decide, hlf.symm⟩)
  · exact .inr (.inl ⟨'r', rfl, by decide, by decide, hcr.symm⟩)
  · exact .inr (.inl ⟨'t', rfl, by decide, by decide, htab.symm⟩)
  · exact .inr (.inl ⟨'b', rfl, by decide, by decide, hback.symm⟩)
  · exact .inr (.inl ⟨'f', rfl, by decide, by decide, hfeed.symm⟩)
  · exact .inr (.inr ⟨rfl, hcontrol⟩)
  · exact .inl ⟨rfl, hquote, hbackslash, hlf⟩

theorem readChar_escapeChar (c : Char) (x : Text) : readChar (escapeChar c ++ x) = some (c, x) := by
  rcases escapeChar_cases c with ⟨h, -, hbackslash, -⟩ | ⟨k, h, hk, -, hread⟩ | ⟨h, hlt⟩
  · rw [h]
    simp [readChar, hbackslash]
  · rw [h, ← hread]
    simp [readChar, hk]
  · have hvalue : 16 * hexValue (Nat.digitChar (c.toNat / 16 % 16)) +
        hexValue (Nat.digitChar (c.toNat % 16)) = c.toNat := by
      rw [hexValue_digitChar _ (Nat.mod_lt _ (by decide)),
        hexValue_digitChar _ (Nat.mod_lt _ (by decide))]
      omega
    rw [h, hexPair]
    simp [readChar, hvalue]

theorem head?_escapeChar_ne (c : Char) (x : Text) : (escapeChar c ++ x).head? ≠ some '"' := by
  rcases escapeChar_cases c with ⟨h, hquote, -⟩ | ⟨k, h, -⟩ | ⟨h, -⟩
  · simpa [h] using hquote
  · simp [h]
  · simp [h]

theorem lf_notMem_escapeChar (c : Char) : '\n' ∉ escapeChar c := by
  rcases escapeChar_cases c with ⟨h, -, -, hlf⟩ | ⟨k, h, -, hlf, -⟩ | ⟨h, -⟩
  · simpa [h] using Ne.symm hlf
  · simpa [h] using Ne.symm hlf
  · have hdigit : ∀ n, '\n' ≠ Nat.digitChar (n % 16) := fun n =>
      (digitChar_ne_lf _ (Nat.mod_lt _ (by decide))).symm
    simp [h, hexPair, hdigit]

/-- The first quote behind escaped characters ends the string. -/
theorem escaped_append_inj {s t x y : Text}
    (h : s.flatMap escapeChar ++ '"' :: x = t.flatMap escapeChar ++ '"' :: y) :
    s = t ∧ x = y := by
  induction s generalizing t with
  | nil =>
    cases t with
    | nil => exact ⟨rfl, List.tail_eq_of_cons_eq h⟩
    | cons d t =>
      rw [List.flatMap_cons, List.append_assoc] at h
      exact absurd (congrArg List.head? h).symm (head?_escapeChar_ne d _)
  | cons c s ih =>
    rw [List.flatMap_cons, List.append_assoc] at h
    cases t with
    | nil => exact absurd (congrArg List.head? h) (head?_escapeChar_ne c _)
    | cons d t =>
      rw [List.flatMap_cons, List.append_assoc] at h
      have hread := congrArg readChar h
      rw [readChar_escapeChar, readChar_escapeChar, Option.some.injEq, Prod.mk.injEq] at hread
      obtain ⟨rfl, hxy⟩ := ih hread.2
      exact ⟨congrArg (· :: s) hread.1, hxy⟩

theorem quote_append_inj {s t x y : Text} (h : quote s ++ x = quote t ++ y) : s = t ∧ x = y := by
  simp only [quote, List.cons_append, List.append_assoc, List.nil_append] at h
  exact escaped_append_inj (List.tail_eq_of_cons_eq h)

theorem lf_notMem_quote (s : Text) : '\n' ∉ quote s := by
  simp [quote, lf_notMem_escapeChar]

/-- No digit stands here, so a number can end here. -/
def EndsNumber (x : Text) : Prop :=
  x.head?.any Char.isDigit = false

theorem ofNat_append_inj {m n : Nat} {x y : Text} (hx : EndsNumber x) (hy : EndsNumber y)
    (h : Text.ofNat m ++ x = Text.ofNat n ++ y) : m = n ∧ x = y := by
  obtain ⟨hm, hxs⟩ := Text.takeWhile_append_eq Text.isDigit_of_mem_ofNat hx
  obtain ⟨hn, hys⟩ := Text.takeWhile_append_eq Text.isDigit_of_mem_ofNat hy
  rw [h] at hm hxs
  exact ⟨Text.ofNat_injective (hm.symm.trans hn), hxs.symm.trans hys⟩

/-- The first character of a value, any digit as zero. -/
def lead : Json → Char
  | .null => 'n'
  | .num _ => '0'
  | .str _ => '"'
  | .arr _ => '['
  | .obj _ => '\x7b'

def leadOf (x : Text) : Option Char :=
  x.head?.map fun c => if c.isDigit then '0' else c

/-- Induction over values, with the hypothesis for whatever an array or an object holds. -/
theorem induction {P : Json → Prop} (null : P .null) (num : ∀ n, P (.num n)) (str : ∀ s, P (.str s))
    (arr : ∀ items, (∀ v ∈ items, P v) → P (.arr items))
    (obj : ∀ fields, (∀ f ∈ fields, P f.2) → P (.obj fields)) : ∀ v, P v
  | .null => null
  | .num n => num n
  | .str s => str s
  | .arr items => arr items fun v _ => induction null num str arr obj v
  | .obj fields => obj fields fun f hf =>
    have hsize : sizeOf f.2 < 1 + sizeOf fields := by
      have hlt := List.sizeOf_lt_of_mem hf
      rw [Prod.mk.sizeOf_spec] at hlt
      omega
    induction null num str arr obj f.2

def compactField (f : Text × Json) : Text :=
  quote f.1 ++ ':' :: f.2.compact

theorem compactItems_eq (items : List Json) :
    compactItems items = [','].intercalate (items.map compact) := by
  induction items with
  | nil => rfl
  | cons v items ih =>
    cases items with
    | nil => simp [compactItems]
    | cons w items => simp [compactItems, ih]

theorem compactFields_eq (fields : List (Text × Json)) :
    compactFields fields = [','].intercalate (fields.map compactField) := by
  induction fields with
  | nil => rfl
  | cons f fields ih =>
    cases fields with
    | nil => simp [compactFields, compactField]
    | cons g fields => simp [compactFields, compactField, ih]

theorem leadOf_compact (v : Json) (x : Text) : leadOf (v.compact ++ x) = some v.lead := by
  cases v with
  | num n =>
    obtain ⟨c, r, hcons⟩ := List.exists_cons_of_ne_nil (Nat.toDigits_ne_nil (n := n) (b := 10))
    have hc : c.isDigit = true := Text.isDigit_of_mem_ofNat c (hcons ▸ List.mem_cons_self)
    rw [compact, Text.ofNat, hcons, leadOf, List.cons_append, List.head?_cons, Option.map_some,
      if_pos hc]
    rfl
  | _ => rfl

section Separated

variable {α : Type} {print : α → Text} {close : Char} {as bs : List α} {x y : Text}

/-- What is printed behind an item: a comma and the items that are left, or the end of the list. -/
def behindItem (print : α → Text) (close : Char) (x : Text) : List α → Text
  | [] => close :: x
  | a :: as => ',' :: ([','].intercalate ((a :: as).map print) ++ close :: x)

theorem intercalate_cons_append (a : α) (as : List α) :
    [','].intercalate ((a :: as).map print) ++ close :: x =
      print a ++ behindItem print close x as := by
  cases as <;> simp [behindItem]

theorem endsNumber_behindItem (hdigit : close.isDigit = false) (as : List α) :
    EndsNumber (behindItem print close x as) := by
  cases as with
  | nil => exact hdigit
  | cons a as => rfl

/-- Items that are told apart wherever a number can end, and from the end of the list, are told
apart in a list. -/
theorem separated_append_inj (hdigit : close.isDigit = false) (hcomma : close ≠ ',')
    (hclose : ∀ a x, (print a ++ x).head? ≠ some close)
    (hprint : ∀ a ∈ as, ∀ b x y, EndsNumber x → EndsNumber y → print a ++ x = print b ++ y →
      a = b ∧ x = y)
    (h : [','].intercalate (as.map print) ++ close :: x =
      [','].intercalate (bs.map print) ++ close :: y) : as = bs ∧ x = y := by
  induction as generalizing bs with
  | nil =>
    cases bs with
    | nil => exact ⟨rfl, List.tail_eq_of_cons_eq h⟩
    | cons b bs =>
      rw [intercalate_cons_append] at h
      exact absurd (congrArg List.head? h).symm (hclose b _)
  | cons a as ih =>
    obtain ⟨ha, has⟩ := List.forall_mem_cons.1 hprint
    cases bs with
    | nil =>
      rw [intercalate_cons_append] at h
      exact absurd (congrArg List.head? h) (hclose a _)
    | cons b bs =>
      rw [intercalate_cons_append, intercalate_cons_append] at h
      obtain ⟨rfl, hrest⟩ := ha b _ _ (endsNumber_behindItem hdigit as)
        (endsNumber_behindItem hdigit bs) h
      cases as with
      | nil =>
        cases bs with
        | nil => exact ⟨rfl, List.tail_eq_of_cons_eq hrest⟩
        | cons c bs => exact absurd (List.head_eq_of_cons_eq hrest) hcomma
      | cons c as =>
        cases bs with
        | nil => exact absurd (List.head_eq_of_cons_eq hrest).symm hcomma
        | cons d bs =>
          obtain ⟨htail, hxy⟩ := ih has (List.tail_eq_of_cons_eq hrest)
          exact ⟨congrArg _ htail, hxy⟩

end Separated

theorem head?_compact_ne (v : Json) (x : Text) : (v.compact ++ x).head? ≠ some ']' := by
  intro h
  have hlead := v.leadOf_compact x
  rw [leadOf, h] at hlead
  cases v <;> cases hlead

theorem head?_compactField_ne (f : Text × Json) (x : Text) :
    (compactField f ++ x).head? ≠ some '\x7d' := by
  rintro ⟨⟩

theorem lead_eq_of_append {a b : Json} {x y : Text} (h : a.compact ++ x = b.compact ++ y) :
    a.lead = b.lead := by
  have hlead := congrArg leadOf h
  rwa [leadOf_compact, leadOf_compact, Option.some.injEq] at hlead

/-- Where a value is followed by no digit, its printed form tells it from all others. -/
theorem compact_append_inj {a b : Json} {x y : Text} (hx : EndsNumber x) (hy : EndsNumber y)
    (h : a.compact ++ x = b.compact ++ y) : a = b ∧ x = y := by
  have hlead := lead_eq_of_append h
  induction a using Json.induction generalizing b x y with
  | null =>
    cases b with
    | null => exact ⟨rfl, List.append_cancel_left h⟩
    | _ => cases hlead
  | num m =>
    cases b with
    | num n =>
      obtain ⟨rfl, hxy⟩ := ofNat_append_inj hx hy h
      exact ⟨rfl, hxy⟩
    | _ => cases hlead
  | str s =>
    cases b with
    | str t =>
      obtain ⟨rfl, hxy⟩ := quote_append_inj h
      exact ⟨rfl, hxy⟩
    | _ => cases hlead
  | arr items ih =>
    cases b with
    | arr items' =>
      simp only [compact, List.cons_append, List.append_assoc, List.nil_append,
        compactItems_eq] at h
      obtain ⟨rfl, hxy⟩ := separated_append_inj rfl (by decide) head?_compact_ne
        (fun v hv w x y hx hy hvw => ih v hv hx hy hvw (lead_eq_of_append hvw))
        (List.tail_eq_of_cons_eq h)
      exact ⟨rfl, hxy⟩
    | _ => cases hlead
  | obj fields ih =>
    cases b with
    | obj fields' =>
      simp only [compact, List.cons_append, List.append_assoc, List.nil_append,
        compactFields_eq] at h
      obtain ⟨rfl, hxy⟩ := separated_append_inj rfl (by decide) head?_compactField_ne
        (fun f hf g x y hx hy hfg => by
          simp only [compactField, List.append_assoc, List.cons_append] at hfg
          obtain ⟨hkey, hfg⟩ := quote_append_inj hfg
          have hvalues := List.tail_eq_of_cons_eq hfg
          obtain ⟨hvalue, hxy⟩ := ih f hf hx hy hvalues (lead_eq_of_append hvalues)
          exact ⟨Prod.ext hkey hvalue, hxy⟩) (List.tail_eq_of_cons_eq h)
      exact ⟨rfl, hxy⟩
    | _ => cases hlead

theorem compact_injective {a b : Json} (h : a.compact = b.compact) : a = b :=
  (compact_append_inj (x := []) (y := []) rfl rfl (by rw [h])).1

theorem lf_notMem_intercalate {ts : List Text} (h : ∀ t ∈ ts, '\n' ∉ t) :
    '\n' ∉ [','].intercalate ts := by
  induction ts with
  | nil => exact List.not_mem_nil
  | cons t ts ih =>
    obtain ⟨ht, hts⟩ := List.forall_mem_cons.1 h
    cases ts with
    | nil => simpa using ht
    | cons u ts => simpa using ⟨ht, ih hts⟩

theorem lf_notMem_compact (v : Json) : '\n' ∉ v.compact := by
  induction v using Json.induction with
  | null => decide
  | num n => exact Text.lf_notMem_ofNat n
  | str s => exact lf_notMem_quote s
  | arr items ih =>
    have hitems := lf_notMem_intercalate (List.forall_mem_map.2 ih)
    simpa [compact, compactItems_eq] using hitems
  | obj fields ih =>
    have hfield : ∀ f ∈ fields, '\n' ∉ compactField f := fun f hf => by
      simpa [compactField, lf_notMem_quote] using ih f hf
    have hfields := lf_notMem_intercalate (List.forall_mem_map.2 hfield)
    simpa [compact, compactFields_eq] using hfields

end Json
end PhpImports
