import PhpImports.Cursor.LineTable
import PhpImports.Proofs.Cursor.Name
import PhpImports.Proofs.Text.Location

/-!
# Looking up lines

In a text of fewer than 2 ^ 32 bytes the offsets where lines start are in order, so the search in
the line table finds the line of every offset. Each cut falls between two characters, and what is
found is the location of the offset (`lineCol_eq`, `lineText_eq`).
-/

namespace PhpImports.Cursor

/-- A search in order ends at the last of the entries that are not past the key. -/
theorem search_append {ys zs : List UInt32} {key : UInt32} (horder : (ys ++ zs).Pairwise (· < ·))
    (hys : ∀ y ∈ ys, y ≤ key) (hzs : ∀ z ∈ zs, key < z) {lo hi : Nat}
    {hhi : hi ≤ (ys ++ zs).length} (hlo : lo ≤ ys.length) (hle : ys.length ≤ hi) :
    search (ys ++ zs) key lo hi hhi = .ok (ys.length - 1) ∨
      search (ys ++ zs) key lo hi hhi = .error ys.length := by
  have hbelow : ∀ j (hj : j < (ys ++ zs).length), (ys ++ zs)[j] ≤ key → j < ys.length := by
    intro j hj hkey
    by_contra hnot
    rw [List.getElem_append_right (Nat.le_of_not_lt hnot)] at hkey
    exact UInt32.lt_irrefl _ (UInt32.lt_of_lt_of_le (hzs _ (List.getElem_mem _)) hkey)
  have habove : ∀ j (hj : j < (ys ++ zs).length), ¬ (ys ++ zs)[j] ≤ key → ys.length ≤ j := by
    intro j hj hkey
    by_contra hnot
    rw [List.getElem_append_left (Nat.lt_of_not_le hnot)] at hkey
    exact hkey (hys _ (List.getElem_mem _))
  fun_induction search (ys ++ zs) key lo hi hhi with
  | case1 lo hi hhi hlt mid hmid heq =>
    have hin := hbelow mid hmid (heq ▸ UInt32.le_refl _)
    refine Or.inl (congrArg Except.ok ?_)
    by_contra hlast
    have hnext : ys.length - 1 < (ys ++ zs).length := by
      rw [List.length_append]
      omega
    have hkey := List.pairwise_iff_getElem.1 horder mid (ys.length - 1) hmid hnext (by omega)
    rw [heq, List.getElem_append_left (by omega)] at hkey
    exact UInt32.lt_irrefl _ (UInt32.lt_of_lt_of_le hkey (hys _ (List.getElem_mem _)))
  | case2 lo hi hhi hlt mid hmid hne hless ih =>
    exact ih (hbelow mid hmid (UInt32.le_of_lt hless)) hle
  | case3 lo hi hhi hlt mid hmid hne hnot ih =>
    refine ih hlo (habove mid hmid fun hkey => ?_)
    rcases UInt32.lt_or_eq_of_le hkey with hless | heq
    · exact hnot hless
    · exact hne heq
  | case4 lo hi hhi hnot =>
    exact Or.inr (congrArg Except.error (by omega))

/-- The offsets behind the line feeds of a text that starts at `i`. -/
def lineOffsets (i : Nat) : Text → List Nat
  | [] => []
  | c :: r => (if c = '\n' then [i + 1] else []) ++ lineOffsets (i + c.utf8Size) r

section LineOffsets

variable {a r : Text} {i x : Nat}

theorem lineOffsets_append (i : Nat) (a r : Text) :
    lineOffsets i (a ++ r) = lineOffsets i a ++ lineOffsets (i + a.size) r := by
  induction a generalizing i with
  | nil => rfl
  | cons c a ih =>
    rw [List.cons_append, lineOffsets, lineOffsets, ih, Text.size_cons, List.append_assoc,
      Nat.add_assoc]

theorem length_lineOffsets (i : Nat) (a : Text) : (lineOffsets i a).length = a.count '\n' := by
  induction a generalizing i with
  | nil => rfl
  | cons c a ih =>
    rw [lineOffsets, List.length_append, ih, List.count_cons]
    by_cases hc : c = '\n' <;> simp [hc, Nat.add_comm]

theorem lineOffsets_of_notMem (h : '\n' ∉ a) (i : Nat) : lineOffsets i a = [] := by
  rw [← List.length_eq_zero_iff, length_lineOffsets, List.count_eq_zero_of_not_mem h]

theorem bounds_of_mem_lineOffsets (h : x ∈ lineOffsets i a) : i < x ∧ x ≤ i + a.size := by
  induction a generalizing i with
  | nil => cases h
  | cons c a ih =>
    have hwidth := Char.utf8Size_pos c
    rw [Text.size_cons]
    rw [lineOffsets] at h
    rcases List.mem_append.1 h with h | h
    · split at h
      · obtain rfl := List.mem_singleton.1 h
        omega
      · cases h
    · have hrest := ih h
      omega

/-- A line starts behind the first character at the earliest. -/
theorem le_of_mem_lineOffsets {c : Char} (h : x ∈ lineOffsets i (c :: r)) : i + c.utf8Size ≤ x := by
  rw [lineOffsets] at h
  rcases List.mem_append.1 h with h | h
  · split at h
    · next hc =>
      obtain rfl := List.mem_singleton.1 h
      rw [hc]
      exact Nat.le_refl _
    · cases h
  · exact Nat.le_of_lt (bounds_of_mem_lineOffsets h).1

theorem pairwise_lineOffsets (i : Nat) (a : Text) : (i :: lineOffsets i a).Pairwise (· < ·) := by
  induction a generalizing i with
  | nil => exact List.pairwise_singleton _ _
  | cons c a ih =>
    refine List.pairwise_cons.2 ⟨fun x hx => (bounds_of_mem_lineOffsets hx).1, ?_⟩
    have hrest := ih (i + c.utf8Size)
    rw [lineOffsets]
    split
    · next hc =>
      subst hc
      exact hrest
    · exact (List.pairwise_cons.1 hrest).2

/-- The last line of a text starts where those before it end. -/
theorem getElem?_lineOffsets (a : Text) :
    (0 :: lineOffsets 0 a)[a.count '\n']? = some a.endedLines.size := by
  have hsplit : lineOffsets 0 a = lineOffsets 0 a.endedLines := by
    have hnone := lineOffsets_of_notMem a.notMem_lastLine (0 + a.endedLines.size)
    have happend := lineOffsets_append 0 a.endedLines a.lastLine
    rwa [a.endedLines_append_lastLine, hnone, List.append_nil] at happend
  rw [hsplit, Text.count_lastLine]
  rcases a.endedLines_cases with hnil | ⟨b, hb⟩
  · rw [hnil]
    rfl
  · have hlength := length_lineOffsets 0 b
    have hcount : List.count '\n' (b ++ ['\n']) = (lineOffsets 0 b).length + 1 := by
      rw [List.count_append, hlength]
      rfl
    rw [hb, hcount, lineOffsets_append, List.getElem?_cons_succ,
      List.getElem?_append_right (Nat.le_refl _), Nat.sub_self, Text.size_append,
      Nat.zero_add]
    rfl

/-- The next line starts behind the first line feed. -/
theorem head?_lineOffsets (i : Nat) (r : Text) :
    (lineOffsets i r).head? = if '\n' ∈ r then some (i + r.firstLine.size + 1) else none := by
  have hnone := lineOffsets_of_notMem r.notMem_firstLine i
  rcases r.firstLine_cases with hwhole | ⟨b, hb⟩
  · rw [if_neg fun hmem => r.notMem_firstLine (hwhole ▸ hmem), hwhole, hnone]
    rfl
  · have hmem : '\n' ∈ r := hb ▸ List.mem_append_right _ List.mem_cons_self
    have happend := lineOffsets_append i r.firstLine ('\n' :: b)
    rw [← hb, hnone, List.nil_append] at happend
    rw [if_pos hmem, happend]
    rfl

end LineOffsets

theorem starts_char (c : Char) (i : Nat) :
    ((String.utf8EncodeChar c).zipIdx i).filterMap
        (fun p => if p.1 = 10 then some (p.2 + 1).toUInt32 else none) =
      (if c = '\n' then [i + 1] else []).map Nat.toUInt32 := by
  by_cases hlf : c = '\n'
  · subst hlf
    rfl
  · rw [if_neg hlf, List.map_nil, List.filterMap_eq_nil_iff]
    intro p hp
    refine if_neg fun hbyte => hlf ?_
    have hmem : (10 : UInt8) ∈ String.utf8EncodeChar c := hbyte ▸ List.fst_mem_of_mem_zipIdx hp
    by_cases hc : c.toNat < 128
    · rw [utf8EncodeChar_ascii hc, List.mem_singleton] at hmem
      have hnat := congrArg UInt8.toNat hmem
      rw [UInt8.toNat_ofNat', Nat.mod_eq_of_lt (by omega)] at hnat
      exact Char.toNat_inj.1 hnat.symm
    · exact absurd (le_of_mem_utf8EncodeChar (Nat.le_of_not_lt hc) _ hmem) (by decide)

/-- The bytes that are line feeds are those of the characters that are. -/
theorem starts_bytes (i : Nat) (s : Text) :
    (s.bytes.zipIdx i).filterMap (fun p => if p.1 = 10 then some (p.2 + 1).toUInt32 else none) =
      (lineOffsets i s).map Nat.toUInt32 := by
  induction s generalizing i with
  | nil => rfl
  | cons c s ih =>
    rw [Text.bytes_cons, List.zipIdx_append, List.filterMap_append, starts_char,
      String.length_utf8EncodeChar, ih, lineOffsets, List.map_append]

theorem toNat_toUInt32 {n : Nat} (h : n < UInt32.size) : n.toUInt32.toNat = n := by
  rw [Nat.toUInt32, UInt32.toNat_ofNat', Nat.mod_eq_of_lt h]

namespace LineTable

theorem starts_ofText (s : Text) :
    (ofText s).starts = (0 :: lineOffsets 0 s).map Nat.toUInt32 := by
  rw [ofText, starts_bytes]
  rfl

section Lookup

variable {a r : Text} {n : Nat}

/-- Back from an offset to the character in which it is. -/
theorem floor_eq (h : Text.Reaches n a r) {start : Nat} (hstart : start ≤ a.size) :
    floor (a ++ r) start n = a.size := by
  induction n with
  | zero => exact (Nat.le_zero.1 h.le).symm
  | succ n ih =>
    rw [floor]
    by_cases hn : a.size = n + 1
    · have hat : At (a ++ r) (n + 1) r := ⟨a, rfl, hn.symm⟩
      rw [if_neg, hn]
      rintro ⟨-, hnone⟩
      rw [hat.dropBytes?] at hnone
      cases hnone
    · have hlt : a.size < n + 1 := Nat.lt_of_le_of_ne h.le hn
      have hnone : (a ++ r).dropBytes? (n + 1) = none := by
        rw [Option.eq_none_iff_forall_ne_some]
        intro x hx
        have hle := h.isGreatest.2 ⟨⟨x, at_of_dropBytes? hx⟩, Nat.le_refl _⟩
        omega
      rw [if_pos ⟨by omega, hnone⟩]
      refine ih ⟨by omega, fun c x hr => ?_⟩
      have hnext := h.lt c x hr
      omega

variable {key : UInt32}

theorem pairwise_starts {s : Text} (hs : s.size < UInt32.size) :
    (ofText s).starts.Pairwise (· < ·) := by
  rw [starts_ofText, List.pairwise_map]
  refine (pairwise_lineOffsets 0 s).imp_of_mem ?_
  intro x y hx hy hlt
  have hbound : ∀ z ∈ 0 :: lineOffsets 0 s, z < UInt32.size := by
    intro z hz
    rcases List.mem_cons.1 hz with rfl | hz
    · decide
    · have hz' := bounds_of_mem_lineOffsets hz
      omega
  rwa [UInt32.lt_iff_toNat_lt, toNat_toUInt32 (hbound x hx), toNat_toUInt32 (hbound y hy)]

theorem lineOf_eq (hs : Text.size (a ++ r) < UInt32.size) (h : Text.Reaches key.toNat a r) :
    (ofText (a ++ r)).lineOf key = a.count '\n' := by
  have hsize := hs
  rw [Text.size_append] at hsize
  have hstarts : (ofText (a ++ r)).starts =
      (0 :: lineOffsets 0 a).map Nat.toUInt32 ++ (lineOffsets a.size r).map Nat.toUInt32 := by
    rw [starts_ofText, lineOffsets_append, Nat.zero_add, ← List.map_append]
    rfl
  have hupto : ∀ y ∈ (0 :: lineOffsets 0 a).map Nat.toUInt32, y ≤ key := by
    intro y hy
    obtain ⟨x, hx, rfl⟩ := List.mem_map.1 hy
    have hle : x ≤ a.size := by
      rcases List.mem_cons.1 hx with rfl | hx
      · exact Nat.zero_le _
      · have hbounds := bounds_of_mem_lineOffsets hx
        omega
    have hkey := h.le
    rw [UInt32.le_iff_toNat_le, toNat_toUInt32 (by omega)]
    omega
  have hpast : ∀ z ∈ (lineOffsets a.size r).map Nat.toUInt32, key < z := by
    intro z hz
    obtain ⟨x, hx, rfl⟩ := List.mem_map.1 hz
    have hbounds := bounds_of_mem_lineOffsets hx
    rw [UInt32.lt_iff_toNat_lt, toNat_toUInt32 (by omega)]
    cases r with
    | nil => cases hx
    | cons c r =>
      have hkey := h.lt c r rfl
      have hle := le_of_mem_lineOffsets hx
      omega
  have horder := pairwise_starts hs
  have hlength : ((0 :: lineOffsets 0 a).map Nat.toUInt32).length = a.count '\n' + 1 := by
    rw [List.length_map, List.length_cons, length_lineOffsets]
  rw [hstarts] at horder
  have hfound := @search_append _ _ key horder hupto hpast 0 _ (Nat.le_refl _) (Nat.zero_le _)
    (by rw [List.length_append]; exact Nat.le_add_right _ _)
  rw [hlength, Nat.add_sub_cancel] at hfound
  simp only [lineOf, hstarts]
  rcases hfound with hfound | hfound
  · rw [hfound]
  · rw [hfound]
    rfl

theorem length_le_size (s : Text) : s.length ≤ s.size := by
  induction s with
  | nil => exact Nat.le_refl _
  | cons c s ih =>
    have hwidth := Char.utf8Size_pos c
    rw [List.length_cons, Text.size_cons]
    omega

/-- An offset past the end counts as the end. -/
theorem toNat_clamp (x : UInt32) {n : Nat} (hn : n < UInt32.size) :
    (min x n.toUInt32).toNat = min x.toNat n := by
  have hnat := toNat_toUInt32 hn
  by_cases hle : x ≤ n.toUInt32
  · have hmin : min x n.toUInt32 = x := if_pos hle
    rw [UInt32.le_iff_toNat_le, hnat] at hle
    rw [hmin]
    omega
  · have hmin : min x n.toUInt32 = n.toUInt32 := if_neg hle
    rw [UInt32.le_iff_toNat_le, hnat] at hle
    rw [hmin, hnat]
    omega

theorem start_eq (a r : Text) :
    (ofText (a ++ r)).start (a.count '\n') = .ok a.endedLines.size.toUInt32 := by
  have hlength := length_lineOffsets 0 a
  have hfound : (ofText (a ++ r)).starts[a.count '\n']? = some a.endedLines.size.toUInt32 := by
    rw [starts_ofText, lineOffsets_append, ← List.cons_append, List.getElem?_map,
      List.getElem?_append_left (by rw [List.length_cons, hlength]; omega), getElem?_lineOffsets]
    rfl
  rw [start, hfound]

theorem at_lastLine (a r : Text) : At (a ++ r) a.endedLines.size (a.lastLine ++ r) :=
  ⟨a.endedLines, by rw [← List.append_assoc, a.endedLines_append_lastLine], rfl⟩

theorem size_endedLines_add (a : Text) : a.endedLines.size + a.lastLine.size = a.size := by
  rw [← Text.size_append, a.endedLines_append_lastLine]

theorem lineCol_eq {byte : UInt32} (hs : Text.size (a ++ r) < UInt32.size)
    (h : Text.Reaches (min byte.toNat (Text.size (a ++ r))) a r) :
    (ofText (a ++ r)).lineCol byte =
      .ok ((a.count '\n').toUInt32, a.lastLine.length.toUInt32) := by
  have hsize := hs
  rw [Text.size_append] at hsize
  have hlast := size_endedLines_add a
  have hstart : (a.endedLines.size.toUInt32).toNat = a.endedLines.size :=
    toNat_toUInt32 (by omega)
  have hcut : textBetween (a ++ r) a.endedLines.size a.size = .ok a.lastLine := by
    have hbetween := (at_lastLine a r).textBetween
    rwa [hlast] at hbetween
  rw [← toNat_clamp byte hs] at h
  have hline := lineOf_eq hs h
  have hended : a.endedLines.size ≤ a.size := by omega
  have hfloor := floor_eq h hended
  simp only [lineCol]
  rw [show (ofText (a ++ r)).text = a ++ r from rfl, hline, start_eq]
  simp only [bind, Except.bind, hstart, hfloor, hcut]
  rfl

/-- The line after the one in which `a` ends starts behind the first line feed of the rest. -/
theorem starts_next (a r : Text) :
    (ofText (a ++ r)).starts[a.count '\n' + 1]? =
      (lineOffsets a.size r).head?.map Nat.toUInt32 := by
  have hlength := length_lineOffsets 0 a
  rw [starts_ofText, lineOffsets_append, List.map_cons, List.getElem?_cons_succ, List.map_append,
    List.getElem?_append_right (by simp [hlength]), List.length_map, hlength, Nat.sub_self,
    ← List.head?_eq_getElem?, List.head?_map, Nat.zero_add]

theorem textBetween_line (a r : Text) :
    textBetween (a ++ r) a.endedLines.size (a.size + r.firstLine.size) =
      .ok (a.lastLine ++ r.firstLine) := by
  obtain ⟨x, hx⟩ : ∃ x, r = r.firstLine ++ x := by
    rcases r.firstLine_cases with hwhole | ⟨b, hb⟩
    · exact ⟨[], by rw [List.append_nil]; exact hwhole⟩
    · exact ⟨_, hb⟩
  have hat : At (a ++ r) a.endedLines.size ((a.lastLine ++ r.firstLine) ++ x) := by
    rw [List.append_assoc, ← hx]
    exact at_lastLine a r
  have hbetween := hat.textBetween
  rwa [Text.size_append, ← Nat.add_assoc, size_endedLines_add] at hbetween

/-- A line ends one byte before the next one starts, and the last line where the text does. -/
theorem stop_eq (hs : Text.size (a ++ r) < UInt32.size) :
    (ofText (a ++ r)).stop (a.count '\n') = a.size + r.firstLine.size := by
  rw [stop, starts_next, head?_lineOffsets]
  rcases r.firstLine_cases with hwhole | ⟨b, hb⟩
  · rw [if_neg fun hmem => r.notMem_firstLine (hwhole ▸ hmem), ← hwhole, ← Text.size_append]
    rfl
  · have hmem : '\n' ∈ r := hb ▸ List.mem_append_right _ List.mem_cons_self
    have hlong := congrArg Text.size hb
    rw [Text.size_append] at hs
    rw [Text.size_append, Text.size_cons] at hlong
    have hwidth := Char.utf8Size_pos '\n'
    rw [if_pos hmem]
    simp only [Option.map_some]
    rw [toNat_toUInt32 (by omega), Nat.add_sub_cancel]

theorem count_lt (hs : Text.size (a ++ r) < UInt32.size) : a.count '\n' < UInt32.size := by
  have hcount := List.count_le_length (a := '\n') (l := a)
  have hlength := length_le_size a
  rw [Text.size_append] at hs
  omega

theorem lineText_eq {byte : UInt32} (hs : Text.size (a ++ r) < UInt32.size)
    (h : Text.Reaches (min byte.toNat (Text.size (a ++ r))) a r) :
    (ofText (a ++ r)).lineText byte = .ok (a.lastLine ++ r.firstLine) := by
  have hsize := hs
  rw [Text.size_append] at hsize
  have hlast := size_endedLines_add a
  have hcount := toNat_toUInt32 (count_lt hs)
  have hstart : (a.endedLines.size.toUInt32).toNat = a.endedLines.size :=
    toNat_toUInt32 (by omega)
  simp only [lineText, lineCol_eq hs h, bind, Except.bind, hcount, start_eq, hstart, stop_eq hs]
  exact textBetween_line a r

theorem length_lastLine_lt (hs : Text.size (a ++ r) < UInt32.size) :
    a.lastLine.length < UInt32.size := by
  have hlength := length_le_size a.lastLine
  have hlast := size_endedLines_add a
  rw [Text.size_append] at hs
  omega

end Lookup

/-- The line and the column of a place between two characters. -/
theorem lineCol_of_at {s x : Text} {i : UInt32} (hs : s.size < UInt32.size) (h : At s i.toNat x) :
    ∃ a, s = a ++ x ∧ a.size = i.toNat ∧
      (ofText s).lineCol i = .ok ((a.count '\n').toUInt32, a.lastLine.length.toUInt32) := by
  obtain ⟨a, rfl, hi⟩ := h
  refine ⟨a, rfl, hi.symm, lineCol_eq hs (Text.Reaches.clamp ⟨Nat.le_of_eq hi.symm, ?_⟩)⟩
  intro c y _
  have hwidth := Char.utf8Size_pos c
  omega

/-- Places between characters are found in their order. -/
theorem lineCol_lt {s x y : Text} {i j : UInt32} (hs : s.size < UInt32.size)
    (hi : At s i.toNat x) (hj : At s j.toNat y) (hlt : i < j) :
    ∃ p q, (ofText s).lineCol i = .ok p ∧ (ofText s).lineCol j = .ok q ∧
      (p.1 < q.1 ∨ p.1 = q.1 ∧ p.2 < q.2) := by
  obtain ⟨a, rfl, hasize, hfirst⟩ := lineCol_of_at hs hi
  obtain ⟨b, hsplit, hbsize, hsecond⟩ := lineCol_of_at hs hj
  refine ⟨_, _, hfirst, hsecond, ?_⟩
  have hsize : a.size < b.size := by
    rw [hasize, hbsize]
    exact UInt32.lt_iff_toNat_lt.1 hlt
  have hs' := hsplit ▸ hs
  rcases List.append_eq_append_iff.1 hsplit with ⟨d, rfl, -⟩ | ⟨d, rfl, -⟩
  · have hd : d ≠ [] := by
      rintro rfl
      rw [List.append_nil] at hsize
      exact absurd hsize (Nat.lt_irrefl _)
    simp only [UInt32.lt_iff_toNat_lt, ← UInt32.toNat_inj, toNat_toUInt32 (count_lt hs),
      toNat_toUInt32 (count_lt hs'), toNat_toUInt32 (length_lastLine_lt hs),
      toNat_toUInt32 (length_lastLine_lt hs')]
    exact Location.precedes_of_append a y hd
  · rw [Text.size_append] at hsize
    omega

theorem lineCol_ne {s x y : Text} {i j : UInt32} (hs : s.size < UInt32.size)
    (hi : At s i.toNat x) (hj : At s j.toNat y) (hlt : i < j) :
    (ofText s).lineCol i ≠ (ofText s).lineCol j := by
  obtain ⟨p, q, hp, hq, horder⟩ := lineCol_lt hs hi hj hlt
  rw [hp, hq]
  intro hsame
  obtain rfl := Except.ok.inj hsame
  rcases horder with hline | ⟨-, hcolumn⟩
  · exact UInt32.lt_irrefl _ hline
  · exact UInt32.lt_irrefl _ hcolumn

end LineTable

/-- Looking up the line and the column of an offset, and the line itself, meets no fault in a text
of fewer than 2 ^ 32 bytes. It finds what stands before the last place between characters that is
not past the offset, and finds places between characters in their order. -/
theorem location_of_offset (s : Text) (hs : s.size < UInt32.size) :
    (∀ byte : UInt32, ∃ (a r : Text) (line column : UInt32) (text : Text), s = a ++ r ∧
      IsGreatest {i | (∃ x, At s i x) ∧ i ≤ min byte.toNat s.size} a.size ∧
      (LineTable.ofText s).lineCol byte = .ok (line, column) ∧
      line.toNat = a.count '\n' ∧ column.toNat = a.lastLine.length ∧
      (LineTable.ofText s).lineText byte = .ok text ∧
      s.lines[line.toNat]? = some text ∧ column.toNat ≤ text.length ∧
      (s.locate byte.toNat).line = line.toNat ∧ (s.locate byte.toNat).column = column.toNat ∧
      (s.locate byte.toNat).lineText = text) ∧
    ∀ i j : UInt32, (∃ x, At s i.toNat x) → (∃ y, At s j.toNat y) →
      (i < j → ∃ p q, (LineTable.ofText s).lineCol i = .ok p ∧
        (LineTable.ofText s).lineCol j = .ok q ∧ (p.1 < q.1 ∨ p.1 = q.1 ∧ p.2 < q.2)) ∧
      (i ≠ j → (LineTable.ofText s).lineCol i ≠ (LineTable.ofText s).lineCol j) := by
  constructor
  · intro byte
    obtain ⟨a, r, rfl, hreach⟩ := Text.exists_reaches byte.toNat s
    have hclamped := hreach.clamp
    have hline := toNat_toUInt32 (LineTable.count_lt hs)
    have hcolumn := toNat_toUInt32 (LineTable.length_lastLine_lt hs)
    refine ⟨a, r, _, _, _, rfl, hclamped.isGreatest,
      LineTable.lineCol_eq hs hclamped, hline, hcolumn, LineTable.lineText_eq hs hclamped, ?_, ?_,
      ?_, ?_, ?_⟩
    · rw [hline]
      exact Text.getElem?_lines a r
    · rw [hcolumn, List.length_append]
      exact Nat.le_add_right _ _
    · rw [Text.locate_eq hreach, hline]
      rfl
    · rw [Text.locate_eq hreach, hcolumn]
      rfl
    · rw [Text.locate_eq hreach]
      exact Location.lineText_between a r
  · rintro i j ⟨x, hi⟩ ⟨y, hj⟩
    refine ⟨LineTable.lineCol_lt hs hi hj, fun hne => ?_⟩
    rcases UInt32.lt_or_lt_of_ne hne with hlt | hlt
    · exact LineTable.lineCol_ne hs hi hj hlt
    · exact (LineTable.lineCol_ne hs hj hi hlt).symm

/-- An offset inside a character is looked up where the character starts. -/
theorem location_of_offset_inside :
    let s : Text := "<?php\nuse é\\B;\n".toList
    s.size < UInt32.size ∧ (∃ x, At s 10 x) ∧ (∃ x, At s 12 x) ∧
      (∃ line column : UInt32, (LineTable.ofText s).lineCol 11 = .ok (line, column) ∧
        line.toNat = 1 ∧ column.toNat = 4) ∧
      (LineTable.ofText s).lineText 11 = .ok "use é\\B;".toList ∧
      (LineTable.ofText s).lineCol 10 ≠ (LineTable.ofText s).lineCol 12 := by
  intro s
  have hsize : s.size < UInt32.size := by decide
  have hbefore : ∃ x, At s 10 x := ⟨_, "<?php\nuse ".toList, rfl, rfl⟩
  have hbehind : ∃ x, At s 12 x := ⟨_, "<?php\nuse é".toList, rfl, rfl⟩
  obtain ⟨hlookup, horder⟩ := location_of_offset s hsize
  obtain ⟨-, -, line, column, text, -, -, hlineCol, -, -, hlineText, -, -, hline, hcolumn, htext⟩ :=
    hlookup 11
  have htext' : (s.locate 11).lineText = "use é\\B;".toList := by rfl
  refine ⟨hsize, hbefore, hbehind, ⟨line, column, hlineCol, hline.symm, hcolumn.symm⟩, ?_,
    (horder 10 12 hbefore hbehind).2 (by decide)⟩
  rw [hlineText, ← htext']
  exact congrArg Except.ok htext.symm

end PhpImports.Cursor
