import PhpImports.Proofs.Import.Parts
import PhpImports.Proofs.Import.Place

/-!
# What the span of an import covers

An import is closed by a comma or a semicolon, and what it spans are the name parts since the comma
or brace before that, or since the start of its statement (`Draft.Closes.span_eq`). There is at least
one such name part, since an import that has none has no name. A warning on an import points at
what that import spans (`Statement.exists_closes_of_warning`).
-/

namespace PhpImports

namespace Span

theorem merge_eq {a b : Span} (hstart : a.start ≤ b.start) (hstop : a.stop ≤ b.stop) :
    a.merge b = ⟨a.start, b.stop⟩ := by
  have hmin : min a.start b.start = a.start := if_pos hstart
  have hmax : max a.stop b.stop = b.stop := if_pos hstop
  rw [merge, hmin, hmax]

end Span

namespace Piece

/-- The pieces stand one behind the other, and none of them is empty. -/
structure InOrder (ps : List Piece) : Prop where
  nonempty : ∀ p ∈ ps, p.span.start < p.span.stop
  ordered : ps.Pairwise fun p q => p.span.stop ≤ q.span.start

theorem InOrder.sublist {ps qs : List Piece} (h : InOrder ps) (hsub : qs.Sublist ps) : InOrder qs where
  nonempty := fun p hp => h.nonempty p (hsub.subset hp)
  ordered := h.ordered.sublist hsub

/-- Pieces in order are covered from the start of the first to the end of the last. -/
theorem cover_eq {ps : List Piece} (h : InOrder ps) (hne : ps ≠ []) :
    ∃ first last, ps.head? = some first ∧ ps.getLast? = some last ∧
      cover ps = some ⟨first.span.start, last.span.stop⟩ ∧ first.span.start < last.span.stop := by
  induction ps using List.reverseRecOn with
  | nil => exact absurd rfl hne
  | append_singleton ps p ih =>
    have hp := h.nonempty p (by simp)
    rw [cover_concat, List.getLast?_concat]
    rcases eq_or_ne ps [] with rfl | hps
    · exact ⟨p, p, rfl, rfl, rfl, hp⟩
    · obtain ⟨first, last, hfirst, hlast, hcover, hlt⟩ :=
        ih (h.sublist (List.sublist_append_left ps [p])) hps
      have hbehind : last.span.stop ≤ p.span.start :=
        (List.pairwise_append.1 h.ordered).2.2 last (List.mem_of_getLast? hlast) p
          (List.mem_singleton_self p)
      have hstop : last.span.stop ≤ p.span.stop :=
        UInt32.le_trans hbehind (UInt32.le_of_lt hp)
      have hstart : first.span.start ≤ p.span.start :=
        UInt32.le_trans (UInt32.le_of_lt hlt) hbehind
      refine ⟨first, p, by rw [List.head?_append, hfirst]; rfl, rfl, ?_,
        UInt32.lt_of_le_of_lt hstart hp⟩
      rw [hcover]
      exact congrArg some (Span.merge_eq hstart hstop)

end Piece

/-- The pieces since the last comma, semicolon or brace. -/
def lastRun (read : List Piece) : List Piece :=
  read.rtakeWhile fun p => p.kind ≠ .comma ∧ p.kind ≠ .semicolon ∧ p.kind ≠ .lBrace

theorem lastRun_concat (read : List Piece) (p : Piece) :
    lastRun (read ++ [p]) =
      if p.kind = .comma ∨ p.kind = .semicolon ∨ p.kind = .lBrace then []
      else lastRun read ++ [p] := by
  rw [lastRun, List.rtakeWhile_concat]
  by_cases hstop : p.kind = .comma ∨ p.kind = .semicolon ∨ p.kind = .lBrace
  · have hends : ¬ (p.kind ≠ .comma ∧ p.kind ≠ .semicolon ∧ p.kind ≠ .lBrace) := by tauto
    rw [if_pos hstop, if_neg (by simpa using hends)]
  · have hgoes : p.kind ≠ .comma ∧ p.kind ≠ .semicolon ∧ p.kind ≠ .lBrace := by tauto
    rw [if_neg hstop, if_pos (by simpa using hgoes)]
    rfl

namespace Draft

theorem nameSpan_closeImport (d : Draft) : d.closeImport.nameSpan = none := by
  rw [closeImport]
  split <;> rfl

theorem nameSpan_next (d : Draft) (p : Piece) :
    (d.next p).nameSpan =
      if p.kind.isNamePart then (d.extend p).nameSpan
      else if p.kind = .comma ∨ p.kind = .semicolon ∨ p.kind = .lBrace then none
      else d.nameSpan := by
  rw [next]
  split
  · rfl
  · cases p.kind with
    | comma | semicolon => exact d.nameSpan_closeImport
    | _ => rfl

/-- Only the name parts since the last comma, semicolon or brace count for the span of a name. -/
theorem nameSpan_foldl_next (read : List Piece) :
    (read.foldl next {}).nameSpan = Piece.cover (nameParts (lastRun read)) := by
  induction read using List.reverseRecOn with
  | nil => rfl
  | append_singleton read p ih =>
    rw [List.foldl_concat, lastRun_concat, nameSpan_next]
    by_cases hpart : p.kind.isNamePart = true
    · have hgoes : ¬ (p.kind = .comma ∨ p.kind = .semicolon ∨ p.kind = .lBrace) := by
        rintro (hkind | hkind | hkind) <;> simp [hkind, TokenKind.isNamePart] at hpart
      have hnames : nameParts (lastRun read ++ [p]) = nameParts (lastRun read) ++ [p] := by
        simp [nameParts, hpart]
      rw [if_pos hpart, if_neg hgoes, hnames, nameSpan_extend, ih]
      exact (Piece.cover_concat (nameParts (lastRun read)) p).symm
    · rw [if_neg hpart]
      split
      · rfl
      · have hnames : nameParts (lastRun read ++ [p]) = nameParts (lastRun read) := by
          simp [nameParts, hpart]
        rw [ih, hnames]

/-- The import that closing the draft would add. -/
def clause (d : Draft) : ImportClause :=
  ⟨d.groupPath.appendSegment d.name, d.asName, d.nameSpan.getD Span.zero⟩

/-- A piece adds an import or none; it adds one only if it ends a part with a name. -/
theorem imports_next (d : Draft) (p : Piece) :
    (d.next p).imports = d.imports ∨
      (p.kind = .comma ∨ p.kind = .semicolon) ∧ d.name ≠ [] ∧
        (d.next p).imports = d.imports ++ [d.clause] := by
  have hclose : d.closeImport.imports = d.imports ∨
      d.name ≠ [] ∧ d.closeImport.imports = d.imports ++ [d.clause] := by
    rw [closeImport]
    split
    · exact Or.inl rfl
    · next hname => exact Or.inr ⟨hname, rfl⟩
  rw [next]
  split
  · rw [extend]
    cases d.asName <;> exact Or.inl rfl
  · split
    · exact Or.inl rfl
    · next hkind => exact hclose.imp_right fun h => ⟨Or.inl hkind, h⟩
    · next hkind => exact hclose.imp_right fun h => ⟨Or.inr hkind, h⟩
    · exact Or.inl rfl
    · exact Or.inl rfl

/-- A comma or semicolon closes the import `i`, once a statement has read `read`, which has no
semicolon. -/
structure Closes (read : List Piece) (stop : Piece) (i : ImportClause) : Prop where
  goesOn : ∀ p ∈ read, p.kind ≠ .semicolon
  ends : stop.kind = .comma ∨ stop.kind = .semicolon
  adds : ((read.foldl next {}).next stop).imports = (read.foldl next {}).imports ++ [i]

theorem Closes.eq_clause {read : List Piece} {stop : Piece} {i : ImportClause}
    (h : Closes read stop i) : (read.foldl next {}).name ≠ [] ∧ i = (read.foldl next {}).clause := by
  rcases (read.foldl next {}).imports_next stop with hsame | ⟨-, hname, hadds⟩
  · rw [h.adds] at hsame
    simp at hsame
  · rw [h.adds, List.append_cancel_left_eq, List.singleton_inj] at hadds
    exact ⟨hname, hadds⟩

/-- An import spans the name parts since the last comma or brace, or since the start of its
statement, and there are such name parts. -/
theorem Closes.span_eq {read : List Piece} {stop : Piece} {i : ImportClause}
    (h : Closes read stop i) (horder : Piece.InOrder read) :
    ∃ first last, (nameParts (lastRun read)).head? = some first ∧
      (nameParts (lastRun read)).getLast? = some last ∧
      i.span = ⟨first.span.start, last.span.stop⟩ ∧ first.span.start < last.span.stop := by
  obtain ⟨hname, rfl⟩ := h.eq_clause
  have hspan := nameSpan_foldl_next read
  have hne : nameParts (lastRun read) ≠ [] := by
    intro hnil
    rw [hnil] at hspan
    exact nameSpan_ne_none hname hspan
  have hsub : (nameParts (lastRun read)).Sublist read :=
    List.filter_sublist.trans (List.rtakeWhile_suffix _ _).sublist
  obtain ⟨first, last, hfirst, hlast, hcover, hlt⟩ := Piece.cover_eq (horder.sublist hsub) hne
  refine ⟨first, last, hfirst, hlast, ?_, hlt⟩
  rw [clause, hspan, hcover]
  rfl

/-- Where an import was added that the draft did not have before. -/
theorem exists_adds {d : Draft} {ps : List Piece} {i : ImportClause}
    (h : i ∈ (d.readAll ps).1.imports) : i ∈ d.imports ∨
      ∃ read stop rest, ps = read ++ stop :: rest ∧ (∀ p ∈ read, p.kind ≠ .semicolon) ∧
        (stop.kind = .comma ∨ stop.kind = .semicolon) ∧
        ((read.foldl next d).next stop).imports = (read.foldl next d).imports ++ [i] := by
  induction ps generalizing d with
  | nil => exact Or.inl h
  | cons p ps ih =>
    have hfirst : i ∈ (d.next p).imports → i ∈ d.imports ∨
        ∃ read stop rest, p :: ps = read ++ stop :: rest ∧ (∀ p ∈ read, p.kind ≠ .semicolon) ∧
          (stop.kind = .comma ∨ stop.kind = .semicolon) ∧
          ((read.foldl next d).next stop).imports = (read.foldl next d).imports ++ [i] := by
      intro hi
      rcases d.imports_next p with hsame | ⟨hkind, -, hadds⟩
      · exact Or.inl (hsame ▸ hi)
      · rw [hadds] at hi
        rcases List.mem_append.1 hi with hi | hi
        · exact Or.inl hi
        · obtain rfl := List.mem_singleton.1 hi
          exact Or.inr ⟨[], p, ps, rfl, List.forall_mem_nil _, hkind, hadds⟩
    rw [readAll] at h
    split at h
    · exact hfirst h
    · next hp =>
      rcases ih h with hi | ⟨read, stop, rest, rfl, hread, hrest⟩
      · exact hfirst hi
      · exact Or.inr ⟨p :: read, stop, rest, rfl, List.forall_mem_cons.2 ⟨hp, hread⟩, hrest⟩

end Draft

/-- The codes of the warnings on imports. -/
def importCodes : List (Option Text) :=
  ["W0003".toList, "W0004".toList, "W0005".toList].map some

/-- A statement warns of an import at the comma or semicolon that closes it. -/
theorem Statement.exists_closes_of_warning {ps : List Piece} {d : Diagnostic}
    (h : d ∈ (read ps).diagnostics) (hcode : d.code ∈ importCodes) :
    ∃ read stop rest i, ps = read ++ stop :: rest ∧ Draft.Closes read stop i ∧
      ∃ c ∈ i.causes, d = c.report i.span := by
  rcases mem_diagnostics_read h with hd | rfl | ⟨i, hi, hd⟩
  · rw [Draft.code_diagnostics_readAll ps d hd] at hcode
    exact absurd hcode (by decide)
  · exact absurd hcode (by decide : some "W0001".toList ∉ importCodes)
  · rcases Draft.exists_adds hi with hi | ⟨read, stop, rest, hsplit, hread, hstop, hadds⟩
    · cases hi
    · exact ⟨read, stop, rest, i, hsplit, ⟨hread, hstop, hadds⟩, hd⟩

end PhpImports
