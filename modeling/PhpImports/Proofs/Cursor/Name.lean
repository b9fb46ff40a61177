import PhpImports.Lexeme.Name
import PhpImports.Proofs.Cursor.Quoted
import PhpImports.Proofs.Lexeme.NamePart
import PhpImports.Proofs.Text.Break

/-!
# Names at byte offsets

A name is read label by label: past one label, and then past each separator that a label follows.
That is the run of label characters and separators of `Lexeme.nameRun`, and whether a second label
was read tells the same as whether the run holds a separator.
-/

namespace PhpImports

namespace Lexeme

/-- A name is a label and the segments after it. -/
theorem nameRun_eq (r : Text) :
    nameRun r = (r.takeWhile isLabelChar ++ (nameRun (r.dropWhile isLabelChar)).1,
      (nameRun (r.dropWhile isLabelChar)).2) := by
  induction r with
  | nil => rfl
  | cons c r ih =>
    cases hc : isLabelChar c with
    | true =>
      rw [nameRun_cons_of_label hc, ih]
      simp [hc]
    | false => simp [hc]

/-- Where no label character stands, a name only goes on with a separator. -/
theorem nameRun_fst_eq_nil {r : Text} (h : r.head?.any isLabelChar = false)
    (hsegment : ∀ t, r = separator :: t → Text.startsLabel t = false) : (nameRun r).1 = [] := by
  cases r with
  | nil => rfl
  | cons c r =>
    have hc : isLabelChar c = false := by simpa using h
    rw [nameRun_cons, if_neg]
    by_cases hsep : c = separator
    · simp [Text.continuesName, hc, hsegment r (by rw [hsep])]
    · simp [Text.continuesName, hc, hsep]

end Lexeme

namespace Cursor

theorem at_of_dropBytes? {s r : Text} {i : Nat} (h : s.dropBytes? i = some r) : At s i r := by
  induction s generalizing i with
  | nil =>
    cases i with
    | zero =>
      cases h
      exact At.start []
    | succ i => cases h
  | cons c s ih =>
    cases i with
    | zero =>
      cases h
      exact At.start _
    | succ i =>
      rw [Text.dropBytes?] at h
      split at h
      · obtain ⟨a, rfl, ha⟩ := ih h
        exact ⟨c :: a, rfl, by rw [Text.size_cons]; omega⟩
      · cases h

theorem lt_size_of_charAt? {s : Text} {i : Nat} {c : Char} (h : charAt? s i = some c) :
    i < s.size := by
  obtain ⟨r, hr, hc⟩ := Option.bind_eq_some_iff.1 h
  have hsize := (at_of_dropBytes? hr).size
  have hpos := Text.size_pos (s := r) (by rintro rfl; cases hc)
  omega

/-- Past the label characters. -/
def skipLabel (s : Text) (i : Nat) : Nat :=
  match _ : charAt? s i with
  | some c => if isLabelChar c then skipLabel s (i + c.utf8Size) else i
  | none => i
termination_by s.size - i
decreasing_by
  have hi := lt_size_of_charAt? (by assumption)
  have hc := Char.utf8Size_pos c
  omega

theorem le_skipLabel (s : Text) (i : Nat) : i ≤ skipLabel s i := by
  fun_induction skipLabel s i with
  | case1 => omega
  | case2 => exact Nat.le_refl _
  | case3 => exact Nat.le_refl _

/-- Past the segments, each a separator and a label. -/
def skipSegments (s : Text) (i : Nat) : Nat :=
  if _ : peek s i (· = separator) ∧ (charAt? s (i + 1)).any isLabelStart then
    skipSegments s (skipLabel s (i + 1))
  else i
termination_by s.bytes.length - i
decreasing_by
  have hi : i < s.bytes.length := by
    by_contra hi
    simp_all [peek, byteAt?]
  have hle := le_skipLabel s (i + 1)
  omega

/-- The name whose first label starts at `i`. -/
def name (afterAccess : Bool) (s : Text) (i : Nat) : Result Ending := do
  let j := skipLabel s i
  let first ← textBetween s i j
  let stop := skipSegments s j
  if stop = j then
    return ⟨if afterAccess then .ident else (Keyword.kind? first).getD .ident, stop, none⟩
  return ⟨if first.toLower = "namespace".toList then .nameRelative else .nameQualified, stop, none⟩

/-- The fully qualified name whose separator is at `i`. -/
def fullyQualifiedName (s : Text) (i : Nat) : Ending :=
  ⟨.nameFullyQualified, skipSegments s (skipLabel s (i + 1)), none⟩

variable {s r : Text} {i : Nat}

theorem At.skipLabel (h : At s i r) :
    Cursor.skipLabel s i = i + Text.size (r.takeWhile isLabelChar) := by
  induction r generalizing i with
  | nil =>
    rw [Cursor.skipLabel]
    split
    · next c hc => rw [h.charAt?] at hc; cases hc
    · rfl
  | cons c r ih =>
    rw [Cursor.skipLabel]
    split
    · next d hd =>
      rw [h.charAt?] at hd
      obtain rfl : c = d := by simpa using hd
      cases hc : isLabelChar c with
      | true => rw [if_pos rfl, ih h.next]; simp [hc, Nat.add_assoc]
      | false => simp [hc]
    · next hd => rw [h.charAt?] at hd; cases hd

theorem At.skipSegments (h : At s i r) (hr : r.head?.any isLabelChar = false) :
    Cursor.skipSegments s i = i + Text.size (Lexeme.nameRun r).1 := by
  suffices hall : ∀ n, ∀ {r : Text} {i : Nat}, r.length = n → At s i r →
      r.head?.any isLabelChar = false →
      Cursor.skipSegments s i = i + Text.size (Lexeme.nameRun r).1 from hall r.length rfl h hr
  intro n
  induction n using Nat.strongRecOn with
  | ind n ih =>
    rintro r i rfl h hr
    rw [Cursor.skipSegments]
    rw [h.peek_eq (k := separator)]
    split
    · next hnext =>
      obtain ⟨hsep, hlabel⟩ := hnext
      obtain ⟨t, rfl⟩ := List.head?_eq_some_iff.1 (of_decide_eq_true hsep)
      have ht : At s (i + 1) t := h.succ
      have hstart : Text.startsLabel t = true := by
        rw [ht.charAt?] at hlabel
        cases t with
        | nil => cases hlabel
        | cons d t => exact hlabel
      have hlen := (List.dropWhile_suffix isLabelChar (l := t)).length_le
      have hrest := ih _ (by simp only [List.length_cons]; omega) rfl (ht.takeWhile isLabelChar)
        (Text.head?_dropWhile_any isLabelChar t)
      have hwidth : separator.utf8Size = 1 := rfl
      rw [ht.skipLabel, hrest, Lexeme.nameRun_separator hstart, Lexeme.nameRun_eq t, Text.size_cons,
        Text.size_append, hwidth]
      omega
    · next hnext =>
      rw [Lexeme.nameRun_fst_eq_nil hr, Text.size_nil, Nat.add_zero]
      rintro t rfl
      have ht : At s (i + 1) t := h.succ
      rw [Bool.eq_false_iff]
      intro hstart
      refine hnext ⟨by simp, ?_⟩
      rw [ht.charAt?]
      cases t with
      | nil => cases hstart
      | cons d t => exact hstart

theorem At.fullyQualifiedName (h : At s i (separator :: r)) (hr : Text.startsLabel r = true) :
    Cursor.fullyQualifiedName s i = Ending.of i (Lexeme.fullyQualifiedName (separator :: r)).1 := by
  have hlabel : At s (i + 1) r := h.succ
  have hsegments :=
    (hlabel.takeWhile isLabelChar).skipSegments (Text.head?_dropWhile_any isLabelChar r)
  have hwidth : separator.utf8Size = 1 := rfl
  rw [Cursor.fullyQualifiedName, hlabel.skipLabel, hsegments]
  simp only [Ending.of, Lexeme.fullyQualifiedName, Lexeme.nameRun_separator hr]
  rw [Lexeme.nameRun_eq r, Text.size_cons, Text.size_append, hwidth]
  simp only [Nat.add_assoc]

theorem separator_notMem_takeWhile (r : Text) : separator ∉ r.takeWhile isLabelChar := by
  intro h
  have hlabel := List.all_eq_true.1 (List.all_takeWhile (p := isLabelChar)) separator h
  rw [isLabelChar_separator] at hlabel
  cases hlabel

/-- The segments of a name start with a separator. -/
theorem head?_nameRun_dropWhile {t : Text} {d : Char}
    (h : (Lexeme.nameRun (r.dropWhile isLabelChar)).1 = d :: t) : d = separator := by
  have hhead := Text.head?_dropWhile_any isLabelChar r
  cases hrest : r.dropWhile isLabelChar with
  | nil =>
    rw [hrest] at h
    cases h
  | cons c rest =>
    rw [hrest] at h hhead
    have hc : isLabelChar c = false := by simpa using hhead
    rw [Lexeme.nameRun_cons] at h
    split at h
    · next hname =>
      simp only [List.cons.injEq] at h
      rw [← h.1]
      simp only [Text.continuesName, hc, Bool.false_or, Bool.and_eq_true,
        decide_eq_true_iff] at hname
      exact hname.1
    · cases h

theorem nameKind_nameRun (afterAccess : Bool) (r : Text) :
    Lexeme.nameKind afterAccess (Lexeme.nameRun r).1 =
      if (Lexeme.nameRun (r.dropWhile isLabelChar)).1 = [] then
        if afterAccess then .ident else (Keyword.kind? (r.takeWhile isLabelChar)).getD .ident
      else if Text.toLower (r.takeWhile isLabelChar) = "namespace".toList then .nameRelative
      else .nameQualified := by
  have hlabel := separator_notMem_takeWhile r
  have hrun : (Lexeme.nameRun r).1 =
      r.takeWhile isLabelChar ++ (Lexeme.nameRun (r.dropWhile isLabelChar)).1 := by
    conv_lhs => rw [Lexeme.nameRun_eq]
  rw [hrun, Lexeme.nameKind]
  cases hsegments : (Lexeme.nameRun (r.dropWhile isLabelChar)).1 with
  | nil =>
    rw [List.append_nil, if_neg (by simpa using hlabel), if_pos rfl]
  | cons d t =>
    obtain rfl := head?_nameRun_dropWhile hsegments
    have hfirst : (r.takeWhile isLabelChar ++ separator :: t).takeWhile (· ≠ separator) =
        r.takeWhile isLabelChar := by
      rw [List.takeWhile_append_of_pos]
      · simp
      · intro c hc
        rw [decide_eq_true_iff]
        rintro rfl
        exact hlabel hc
    rw [if_pos (by simp), if_neg (List.cons_ne_nil _ _), hfirst]

theorem At.name {afterAccess : Bool} (h : At s i r) :
    Cursor.name afterAccess s i = .ok (Ending.of i (Lexeme.name afterAccess r).1) := by
  have hsegments := (h.takeWhile isLabelChar).skipSegments (Text.head?_dropWhile_any isLabelChar r)
  have hlabel : Cursor.textBetween s i (i + Text.size (r.takeWhile isLabelChar)) =
      .ok (r.takeWhile isLabelChar) := by
    apply At.textBetween (r := r.dropWhile isLabelChar)
    rwa [List.takeWhile_append_dropWhile]
  have hkind := nameKind_nameRun afterAccess r
  have hsize : Text.size (Lexeme.nameRun r).1 = Text.size (r.takeWhile isLabelChar) +
      Text.size (Lexeme.nameRun (r.dropWhile isLabelChar)).1 := by
    conv_lhs => rw [Lexeme.nameRun_eq, Text.size_append]
  rw [Cursor.name, h.skipLabel, hlabel, hsegments]
  simp only [Ending.of, Lexeme.name, hkind, hsize, bind, Except.bind, pure, Except.pure]
  by_cases hnil : (Lexeme.nameRun (r.dropWhile isLabelChar)).1 = []
  · rw [hnil, Text.size_nil, if_pos (Nat.add_zero _), if_pos rfl]
    rfl
  · have hpos := Text.size_pos hnil
    rw [if_neg (by omega), if_neg hnil, Nat.add_assoc]

end Cursor
end PhpImports
