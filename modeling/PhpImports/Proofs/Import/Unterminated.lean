import PhpImports.Proofs.Import.Extent
import PhpImports.Proofs.Import.Verdict
import Mathlib.Data.List.Forall2

/-!
# Statements without an end

A statement whose word has no semicolon anywhere behind it is reported once for that, and no other
statement is (`Statement.filter_open_diagnostics`); so those that are reported are the ones whose
words stand behind the last semicolon of the file. What is left open then is the name since the last
comma or brace, unless an alias was announced since the last comma: announcing outlives a brace, the
span does not. The report quotes that name and points at the name parts since the last comma or
brace (`ReportsOpen`).
-/

namespace PhpImports

/-- The words that start statements, each with what stands behind it. -/
def statementsIn : List Piece → List (Piece × List Piece)
  | [] => []
  | p :: ps => if p.kind = .kwUse then (p, ps) :: statementsIn ps else statementsIn ps

/-- The statements of a file that no semicolon ends. -/
def openStatements (ps : List Piece) : List (Piece × List Piece) :=
  (statementsIn ps).filter fun s => s.2.all (·.kind ≠ .semicolon)

/-- What stands behind the last comma. -/
def lastPart (ps : List Piece) : List Piece :=
  ps.rtakeWhile (·.kind ≠ .comma)

/-- The name parts behind the last brace of a part that have no word for an alias before them, be it
in front of that brace. -/
def openName (part : List Piece) : List Piece :=
  if (part.rdropWhile (·.kind ≠ .lBrace)).any (·.kind = .kwAs) then [] else ownParts part

/-- The diagnostic reports that nothing ends the statement with these pieces behind its word. -/
structure ReportsOpen (rest : List Piece) (d : Diagnostic) : Prop where
  cause : d.cause = .unterminatedUse
  severity : d.severity = .warning
  help : d.help =
    if Piece.texts (openName (lastPart rest)) = [] then none
    else some ("trailing import '".toList ++ Piece.texts (openName (lastPart rest)) ++
      "' was ignored".toList)
  span : nameParts (lastRun rest) ≠ [] → d.span = Piece.cover (nameParts (lastRun rest))
  fileEnd : nameParts (lastRun rest) = [] →
    ∀ last, rest.getLast? = some last → d.span = some last.span.atStop

theorem statementsIn_concat (ps : List Piece) (p : Piece) :
    statementsIn (ps ++ [p]) = (statementsIn ps).map (fun s => (s.1, s.2 ++ [p])) ++
      if p.kind = .kwUse then [(p, [])] else [] := by
  induction ps with
  | nil => rfl
  | cons q ps ih =>
    rw [List.cons_append, statementsIn, statementsIn, ih]
    split <;> rfl

/-- Only the words behind the last semicolon have no semicolon behind them. -/
theorem openStatements_eq (ps : List Piece) :
    openStatements ps = statementsIn (ps.rtakeWhile (·.kind ≠ .semicolon)) := by
  induction ps using List.reverseRecOn with
  | nil => rfl
  | append_singleton ps p ih =>
    rw [openStatements, statementsIn_concat, List.filter_append, List.filter_map]
    by_cases hp : p.kind = .semicolon
    · rw [List.rtakeWhile_concat_neg _ _ _ (by simp [hp]), if_neg (by simp [hp])]
      simp [Function.comp_def, hp, statementsIn]
    · have hsame : (statementsIn ps).filter
          ((fun s => s.2.all (·.kind ≠ .semicolon)) ∘ fun s => (s.1, s.2 ++ [p])) =
          openStatements ps := by
        rw [openStatements]
        congr 1
        funext s
        simp [hp]
      rw [List.rtakeWhile_concat_pos _ _ _ (by simp [hp]), statementsIn_concat, hsame, ih]
      split <;> simp

theorem lastPart_concat (ps : List Piece) (p : Piece) :
    lastPart (ps ++ [p]) = if p.kind = .comma then [] else lastPart ps ++ [p] := by
  rw [lastPart, List.rtakeWhile_concat]
  by_cases hp : p.kind = .comma
  · rw [if_pos hp, if_neg (by simp [hp])]
  · rw [if_neg hp, if_pos (by simp [hp])]
    rfl

/-- Before the word for an alias, name parts go on. -/
theorem nameParts_takeWhile_concat (segment : List Piece) (p : Piece) :
    nameParts ((segment ++ [p]).takeWhile (·.kind ≠ .kwAs)) =
      nameParts (segment.takeWhile (·.kind ≠ .kwAs)) ++
        if segment.any (·.kind = .kwAs) then [] else nameParts [p] := by
  induction segment with
  | nil =>
    by_cases hp : p.kind = .kwAs
    · simp [nameParts, hp, TokenKind.isNamePart]
    · simp [nameParts, hp]
  | cons q segment ih =>
    by_cases hq : q.kind = .kwAs
    · simp [hq, nameParts]
    · have hcons : ∀ l : List Piece, nameParts (q :: l) = nameParts [q] ++ nameParts l := fun l =>
        List.filter_append (p := fun p : Piece => p.kind.isNamePart) [q] l
      rw [List.cons_append, List.takeWhile_cons_of_pos (by simp [hq]),
        List.takeWhile_cons_of_pos (by simp [hq]), hcons, hcons (segment.takeWhile _), ih,
        List.append_assoc]
      simp [hq]

/-- A part goes on with a piece that is no brace. -/
theorem openName_concat (part : List Piece) {p : Piece} (hp : p.kind ≠ .lBrace) :
    openName (part ++ [p]) =
      openName part ++ if part.any (·.kind = .kwAs) then [] else nameParts [p] := by
  have hfront : (part ++ [p]).rdropWhile (·.kind ≠ .lBrace) = part.rdropWhile (·.kind ≠ .lBrace) :=
    List.rdropWhile_concat_pos _ _ _ (by simp [hp])
  have hback : lastSegment (part ++ [p]) = lastSegment part ++ [p] :=
    List.rtakeWhile_concat_pos _ _ _ (by simp [hp])
  have hany : part.any (·.kind = .kwAs) =
      ((part.rdropWhile (·.kind ≠ .lBrace)).any (·.kind = .kwAs) ||
        (lastSegment part).any (·.kind = .kwAs)) := by
    rw [← List.any_append, lastSegment, List.rdropWhile_append_rtakeWhile]
  rw [openName, openName, hfront, hany, ownParts, ownParts, hback, nameParts_takeWhile_concat]
  cases (part.rdropWhile (·.kind ≠ .lBrace)).any (·.kind = .kwAs) <;> rfl

theorem openName_brace (part : List Piece) {p : Piece} (hp : p.kind = .lBrace) :
    openName (part ++ [p]) = [] := by
  have hback : lastSegment (part ++ [p]) = [] := List.rtakeWhile_concat_neg _ _ _ (by simp [hp])
  rw [openName, ownParts, hback]
  split <;> rfl

namespace Draft

/-- The draft has left open what is read of a part so far. -/
structure LeavesOpen (part : List Piece) (d : Draft) : Prop where
  name : d.name = Piece.texts (openName part)
  announced : d.asName.isSome = part.any (·.kind = .kwAs)

variable {part : List Piece} {p : Piece} {d : Draft}

theorem leavesOpen_closeImport (d : Draft) : d.closeImport.LeavesOpen [] := by
  rw [closeImport]
  split <;> exact ⟨rfl, rfl⟩

theorem LeavesOpen.openGroup (h : d.LeavesOpen part) (hp : p.kind = .lBrace) :
    (d.openGroup p.span).LeavesOpen (part ++ [p]) where
  name := by
    rw [openName_brace part hp]
    rfl
  announced := by
    have hsame : (d.openGroup p.span).asName = d.asName := rfl
    simp [hsame, h.announced, hp]

theorem LeavesOpen.extend (h : d.LeavesOpen part) (hp : p.kind.isNamePart = true) :
    (d.extend p).LeavesOpen (part ++ [p]) := by
  have hbrace : p.kind ≠ .lBrace := by
    intro hkind
    rw [hkind] at hp
    cases hp
  have hword : p.kind ≠ .kwAs := by
    intro hkind
    rw [hkind] at hp
    cases hp
  have hannounced := h.announced
  have hone : nameParts [p] = [p] := by simp [nameParts, hp]
  have hany : (part ++ [p]).any (·.kind = .kwAs) = part.any (·.kind = .kwAs) := by simp [hword]
  rw [Draft.extend]
  cases hread : d.asName with
  | none =>
    rw [hread] at hannounced
    refine ⟨?_, hannounced.trans hany.symm⟩
    rw [openName_concat part hbrace, ← hannounced, if_neg (by simp), hone, Piece.texts_append,
      ← h.name, Piece.texts_singleton]
  | some read =>
    rw [hread] at hannounced
    refine ⟨?_, hannounced.trans hany.symm⟩
    rw [openName_concat part hbrace, ← hannounced, if_pos (by simp), List.append_nil]
    exact h.name

theorem LeavesOpen.announceAlias (h : d.LeavesOpen part) (hp : p.kind = .kwAs) :
    d.announceAlias.LeavesOpen (part ++ [p]) where
  name := by
    have hnone : nameParts [p] = [] := by simp [nameParts, hp, TokenKind.isNamePart]
    rw [openName_concat part (by simp [hp]), hnone, ite_self, List.append_nil]
    exact h.name
  announced := by simp [Draft.announceAlias, hp]

theorem LeavesOpen.next (h : d.LeavesOpen part) (hp : p.kind ≠ .comma ∧ p.kind ≠ .semicolon) :
    (d.next p).LeavesOpen (part ++ [p]) := by
  rw [Draft.next]
  split
  · next hpart => exact h.extend hpart
  · next hpart =>
    split
    · next hkind => exact h.announceAlias hkind
    · next hkind => exact absurd hkind hp.1
    · next hkind => exact absurd hkind hp.2
    · next hkind => exact h.openGroup hkind
    · next hword _ _ hbrace =>
      have hnone : nameParts [p] = [] := by simp [nameParts, hpart]
      refine ⟨?_, ?_⟩
      · rw [openName_concat part hbrace, hnone, ite_self, List.append_nil]
        exact h.name
      · have hne : p.kind ≠ .kwAs := hword
        simp [h.announced, hne]

/-- What is left open is what was read since the last comma. -/
theorem leavesOpen_foldl_next {rest : List Piece} (h : ∀ p ∈ rest, p.kind ≠ .semicolon) :
    (rest.foldl Draft.next {}).LeavesOpen (lastPart rest) := by
  induction rest using List.reverseRecOn with
  | nil => exact ⟨rfl, rfl⟩
  | append_singleton rest p ih =>
    obtain ⟨hrest, hp⟩ := List.forall_mem_append.1 h
    rw [List.foldl_concat, lastPart_concat]
    by_cases hcomma : p.kind = .comma
    · rw [if_pos hcomma, Draft.next, hcomma]
      exact leavesOpen_closeImport _
    · rw [if_neg hcomma]
      exact (ih hrest).next ⟨hcomma, hp p List.mem_cons_self⟩

theorem readAll_of_open {rest : List Piece} (h : ∀ p ∈ rest, p.kind ≠ .semicolon) (d : Draft) :
    d.readAll rest = (rest.foldl Draft.next d, false) := by
  induction rest generalizing d with
  | nil => rfl
  | cons p rest ih =>
    obtain ⟨hp, hrest⟩ := List.forall_mem_cons.1 h
    rw [readAll, if_neg hp, ih hrest, List.foldl_cons]

/-- Reading stops at a semicolon if there is one. -/
theorem readAll_snd (d : Draft) (rest : List Piece) :
    (d.readAll rest).2 = rest.any (·.kind = .semicolon) := by
  induction rest generalizing d with
  | nil => rfl
  | cons p rest ih =>
    rw [readAll]
    by_cases hp : p.kind = .semicolon
    · simp [hp]
    · simp [hp, ih]

end Draft

theorem Piece.exists_cover {ps : List Piece} (h : ps ≠ []) : ∃ s, cover ps = some s := by
  obtain hnil | ⟨qs, p, rfl⟩ := ps.eq_nil_or_concat'
  · exact absurd hnil h
  · exact ⟨_, cover_concat qs p⟩

/-- The report on a statement that nothing ends. -/
theorem Draft.reportsOpen_unterminated {rest : List Piece} (h : ∀ p ∈ rest, p.kind ≠ .semicolon) :
    ReportsOpen rest ((rest.foldl Draft.next {}).unterminated (Statement.fileEnd rest)) := by
  have hname := (leavesOpen_foldl_next h).name
  have hspan := nameSpan_foldl_next rest
  refine ⟨rfl, rfl, ?_, ?_, ?_⟩
  · rw [Draft.unterminated, hname]
  · intro hne
    obtain ⟨s, hs⟩ := Piece.exists_cover hne
    rw [Draft.unterminated, hspan, hs]
    rfl
  · intro hnil last hlast
    rw [Draft.unterminated, hspan, hnil, Statement.fileEnd, hlast]
    rfl

/-- The code of the report that a statement has no end. -/
def openCode : Option Text :=
  some "W0001".toList

theorem ImportClause.JudgedAll.code {is : List ImportClause} {ds : List Diagnostic}
    (h : JudgedAll is ds) : ∀ d ∈ ds, d.code ∈ importCodes := by
  induction h with
  | nil => exact List.forall_mem_nil _
  | concat _ hlast ih =>
    refine List.forall_mem_append.2 ⟨ih, ?_⟩
    cases hlast with
    | first _ _ => exact List.forall_mem_nil _
    | trailing _ | nameless _ _ | again _ _ =>
      intro d hd
      rw [List.mem_singleton.1 hd]
      simp [importCodes, Cause.report, Cause.code?]

namespace Statement

/-- Behind what a draft was reported for come a missing end and then what is wrong with imports. -/
theorem exists_diagnostics_ofDraft (d : Draft) (terminated : Bool) (fileEnd : Span) :
    ∃ added, (ofDraft d terminated fileEnd).diagnostics =
        d.diagnostics ++ (if terminated then [] else [d.unterminated fileEnd]) ++ added ∧
      ∀ x ∈ added, x.code ∈ importCodes := by
  obtain ⟨added, hadded, haccounts⟩ := accounts_foldl_enter
    (s := { terminated, diagnostics :=
      if terminated then d.diagnostics else d.diagnostics ++ [d.unterminated fileEnd] })
    rfl d.imports
  refine ⟨added, hadded.trans ?_, haccounts.judged.code⟩
  cases terminated with
  | true => rw [if_pos rfl, if_pos rfl, List.append_nil]
  | false => rfl

/-- A statement is reported for having no end if it has none, once, and not otherwise. -/
theorem filter_open_diagnostics (rest : List Piece) :
    (read rest).diagnostics.filter (·.code = openCode) =
      if rest.any (·.kind = .semicolon) then []
      else [(rest.foldl Draft.next {}).unterminated (fileEnd rest)] := by
  have hread : read rest = ofDraft (({} : Draft).readAll rest).1 (rest.any (·.kind = .semicolon))
      (fileEnd rest) := by
    rw [← Draft.readAll_snd {} rest]
    rfl
  obtain ⟨added, hadded, hcodes⟩ := exists_diagnostics_ofDraft (({} : Draft).readAll rest).1
    (rest.any (·.kind = .semicolon)) (fileEnd rest)
  have hbraces : (({} : Draft).readAll rest).1.diagnostics.filter (·.code = openCode) = [] := by
    rw [List.filter_eq_nil_iff]
    intro x hx
    rw [Draft.code_diagnostics_readAll rest x hx]
    decide
  have himports : added.filter (·.code = openCode) = [] := by
    rw [List.filter_eq_nil_iff]
    intro x hx hcode
    have hmem := hcodes x hx
    rw [of_decide_eq_true hcode] at hmem
    exact absurd hmem (by decide)
  rw [hread, hadded, List.filter_append, List.filter_append, hbraces, himports, List.nil_append,
    List.append_nil]
  split
  · rfl
  · next hopen =>
    have hnone : ∀ p ∈ rest, p.kind ≠ .semicolon := by simpa using hopen
    rw [Draft.readAll_of_open hnone]
    rfl

theorem readAll_eq_map (ps : List Piece) :
    readAll ps = (statementsIn ps).map fun s => read s.2 := by
  induction ps with
  | nil => rfl
  | cons p ps ih =>
    rw [readAll, statementsIn, ih]
    split <;> rfl

/-- The reports on statements that have no end are those on the ones without a semicolon. -/
theorem forall₂_reportsOpen (ss : List (Piece × List Piece)) :
    List.Forall₂ (fun s d => ReportsOpen s.2 d)
      (ss.filter fun s => s.2.all (·.kind ≠ .semicolon))
      ((ss.flatMap fun s => (read s.2).diagnostics).filter (·.code = openCode)) := by
  induction ss with
  | nil => exact .nil
  | cons s ss ih =>
    rw [List.flatMap_cons, List.filter_append, filter_open_diagnostics]
    by_cases hopen : ∀ p ∈ s.2, p.kind ≠ .semicolon
    · rw [List.filter_cons_of_pos (by simpa using hopen), if_neg (by simpa using hopen)]
      exact .cons (Draft.reportsOpen_unterminated hopen) ih
    · rw [List.filter_cons_of_neg (by simpa using hopen), if_pos (by simpa using hopen)]
      exact ih

end Statement

/-- The statements that are reported for having no end are those that no semicolon ends, each of
them once and in order; their words are the ones behind the last semicolon of the file. -/
theorem reports_of_open_statements (source : Text) (ts : List Token) :
    let ps := ts.map (·.inText source)
    List.Forall₂ (fun s d => ReportsOpen s.2 d) (openStatements ps)
        ((FileImports.ofTokens source ts).diagnostics.filter (·.code = openCode)) ∧
      openStatements ps = statementsIn (ps.rtakeWhile (·.kind ≠ .semicolon)) ∧
      ∀ word rest, word :: rest <:+ ps → word.kind = .kwUse →
        (Statement.read rest).diagnostics.countP (·.code = openCode) =
          if ∃ p ∈ rest, p.kind = .semicolon then 0 else 1 := by
  intro ps
  refine ⟨?_, openStatements_eq ps, ?_⟩
  · have hfound : (FileImports.ofTokens source ts).diagnostics =
        (statementsIn ps).flatMap fun s => (Statement.read s.2).diagnostics := by
      rw [FileImports.ofTokens, FileImports.ofPieces, Statement.readAll_eq_map,
        FileImports.ofStatements, List.flatMap_map]
    rw [hfound]
    exact Statement.forall₂_reportsOpen _
  · intro word rest _ _
    rw [List.countP_eq_length_filter, Statement.filter_open_diagnostics]
    split
    · next hends => rw [if_pos (by simpa using hends)]; rfl
    · next hopen => rw [if_neg (by simpa using hopen)]; rfl

/-- The first of two open statements has announced an alias in front of its brace, so no name is
left open behind it. -/
theorem reports_of_open_statements_announced :
    let source : Text := "use A;use B as C\x7bD use E".toList
    let ts : List Token :=
      [⟨.kwUse, ⟨0, 3⟩⟩, ⟨.ident, ⟨4, 5⟩⟩, ⟨.semicolon, ⟨5, 6⟩⟩, ⟨.kwUse, ⟨6, 9⟩⟩,
       ⟨.ident, ⟨10, 11⟩⟩, ⟨.kwAs, ⟨12, 14⟩⟩, ⟨.ident, ⟨15, 16⟩⟩, ⟨.lBrace, ⟨16, 17⟩⟩,
       ⟨.ident, ⟨17, 18⟩⟩, ⟨.kwUse, ⟨19, 22⟩⟩, ⟨.ident, ⟨23, 24⟩⟩]
    let ps := ts.map (·.inText source)
    let found := (FileImports.ofTokens source ts).diagnostics.filter (·.code = openCode)
    let word : Piece := ⟨.kwUse, ⟨6, 9⟩, "use".toList⟩
    word :: ps.drop 4 <:+ ps ∧ word.kind = .kwUse ∧
      (openStatements ps).map (·.1.span) = [⟨6, 9⟩, ⟨19, 22⟩] ∧
      found.map (fun d => (d.span, d.help)) =
        [(some ⟨17, 24⟩, none), (some ⟨23, 24⟩, some "trailing import 'E' was ignored".toList)] ∧
      List.Forall₂ (fun s d => ReportsOpen s.2 d) (openStatements ps) found ∧
      (Statement.read (ps.drop 4)).diagnostics.countP (·.code = openCode) =
        if ∃ p ∈ ps.drop 4, p.kind = .semicolon then 0 else 1 := by
  intro source ts ps found word
  have hstatement : word :: ps.drop 4 <:+ ps := by decide
  obtain ⟨hreports, -, hcount⟩ := reports_of_open_statements source ts
  exact ⟨hstatement, rfl, by decide, by decide, hreports, hcount word _ hstatement rfl⟩

end PhpImports
