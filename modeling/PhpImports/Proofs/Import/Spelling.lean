import PhpImports.Proofs.Import.Entry
import PhpImports.Proofs.Import.Path

/-!
# How imports are spelled

A spelling keeps the name parts that an import was read from, where the import keeps only their
joined texts. Reading spellings goes with the draft step by step, so the imports of a file are
those of its spellings (`importClauses_eq`). Pieces that are no name parts, commas, braces,
semicolons or the word for an alias leave no trace in a spelling.
-/

namespace PhpImports

namespace Piece

/-- The texts of pieces, one after the other. -/
def texts (ps : List Piece) : Text :=
  ps.flatMap (·.text)

/-- The least span that covers all of the pieces, if there are any. -/
def cover (ps : List Piece) : Option Span :=
  ps.foldl (fun s p => some (match s with
    | some span => span.merge p.span
    | none => p.span)) none

theorem texts_append (ps qs : List Piece) : texts (ps ++ qs) = texts ps ++ texts qs :=
  List.flatMap_append

theorem texts_cons (p : Piece) (ps : List Piece) : texts (p :: ps) = p.text ++ texts ps := rfl

theorem texts_singleton (p : Piece) : texts [p] = p.text := List.append_nil _

theorem cover_concat (ps : List Piece) (p : Piece) :
    cover (ps ++ [p]) = some (match cover ps with
      | some span => span.merge p.span
      | none => p.span) :=
  List.foldl_concat ..

end Piece

/-- The path that segments make up, each appended to those before it. -/
def segmentsPath (segments : List (List Piece)) : Text :=
  segments.foldl (fun path parts => path.appendSegment (Piece.texts parts)) [separator]

theorem segmentsPath_concat (segments : List (List Piece)) (parts : List Piece) :
    segmentsPath (segments ++ [parts]) =
      (segmentsPath segments).appendSegment (Piece.texts parts) :=
  List.foldl_concat ..

/-- The name parts of an import. -/
structure Spelling where
  /-- Those before each brace of the statement. -/
  prefixes : List (List Piece)
  /-- Those of its own name. -/
  own : List Piece
  /-- Those after the word for an alias, if it was read. -/
  asParts : Option (List Piece)
  /-- Those since the last comma or brace. -/
  covered : List Piece
deriving DecidableEq, Repr

namespace Spelling

def segments (x : Spelling) : List (List Piece) :=
  x.prefixes ++ [x.own]

/-- The import that is spelled. -/
def clause (x : Spelling) : ImportClause where
  name := segmentsPath x.segments
  asName := x.asParts.map Piece.texts
  span := (Piece.cover x.covered).getD Span.zero

end Spelling

/-- What a draft has read, by name parts: a spelling in the making and those that are closed. -/
structure SpelledDraft where
  spelling : Spelling := ⟨[], [], none, []⟩
  closed : List Spelling := []
deriving DecidableEq, Repr

namespace SpelledDraft

def extend (t : SpelledDraft) (p : Piece) : SpelledDraft :=
  let covered := t.spelling.covered ++ [p]
  match t.spelling.asParts with
  | some read => { t with spelling := { t.spelling with asParts := some (read ++ [p]), covered } }
  | none => { t with spelling := { t.spelling with own := t.spelling.own ++ [p], covered } }

def announceAlias (t : SpelledDraft) : SpelledDraft :=
  { t with spelling := { t.spelling with asParts := some (t.spelling.asParts.getD []) } }

def closeImport (t : SpelledDraft) : SpelledDraft where
  spelling := ⟨t.spelling.prefixes, [], none, []⟩
  closed := if Piece.texts t.spelling.own = [] then t.closed else t.closed ++ [t.spelling]

def openGroup (t : SpelledDraft) : SpelledDraft :=
  { t with spelling := ⟨t.spelling.segments, [], t.spelling.asParts, []⟩ }

def next (t : SpelledDraft) (p : Piece) : SpelledDraft :=
  if p.kind.isNamePart then t.extend p
  else match p.kind with
    | .kwAs => t.announceAlias
    | .comma | .semicolon => t.closeImport
    | .lBrace => t.openGroup
    | _ => t

def readAll (t : SpelledDraft) : List Piece → SpelledDraft
  | [] => t
  | p :: ps => if p.kind = .semicolon then t.next p else (t.next p).readAll ps

/-- The draft has read what is spelled. -/
structure Spells (t : SpelledDraft) (d : Draft) : Prop where
  groupPath : d.groupPath = segmentsPath t.spelling.prefixes
  name : d.name = Piece.texts t.spelling.own
  asName : d.asName = t.spelling.asParts.map Piece.texts
  nameSpan : d.nameSpan = Piece.cover t.spelling.covered
  imports : d.imports = t.closed.map (·.clause)

theorem spells_default : Spells {} {} :=
  ⟨rfl, rfl, rfl, rfl, rfl⟩

variable {t : SpelledDraft} {d : Draft}

theorem Spells.extend (h : t.Spells d) (p : Piece) : (t.extend p).Spells (d.extend p) := by
  have hspan := Piece.cover_concat t.spelling.covered p
  rw [← h.nameSpan] at hspan
  have hread := h.asName
  cases ht : t.spelling.asParts with
  | none =>
    rw [ht, Option.map_none] at hread
    simp only [SpelledDraft.extend, Draft.extend, ht, hread]
    refine ⟨h.groupPath, ?_, rfl, hspan.symm, h.imports⟩
    rw [h.name, Piece.texts_append, Piece.texts_singleton]
  | some read =>
    rw [ht, Option.map_some] at hread
    simp only [SpelledDraft.extend, Draft.extend, ht, hread]
    refine ⟨h.groupPath, h.name, ?_, hspan.symm, h.imports⟩
    rw [Option.map_some, Piece.texts_append, Piece.texts_singleton]

theorem Spells.announceAlias (h : t.Spells d) : t.announceAlias.Spells d.announceAlias := by
  refine ⟨h.groupPath, h.name, ?_, h.nameSpan, h.imports⟩
  simp only [Draft.announceAlias, SpelledDraft.announceAlias, h.asName]
  cases t.spelling.asParts <;> rfl

theorem Spells.closeImport (h : t.Spells d) : t.closeImport.Spells d.closeImport := by
  rw [SpelledDraft.closeImport, Draft.closeImport, h.name]
  split
  · exact ⟨h.groupPath, rfl, rfl, rfl, h.imports⟩
  · refine ⟨h.groupPath, rfl, rfl, rfl, ?_⟩
    have hpath := segmentsPath_concat t.spelling.prefixes t.spelling.own
    rw [← h.groupPath] at hpath
    simp only [List.map_append, List.map_cons, List.map_nil, Spelling.clause, Spelling.segments,
      hpath, h.imports, h.asName, h.nameSpan]

theorem Spells.openGroup (h : t.Spells d) (brace : Span) :
    t.openGroup.Spells (d.openGroup brace) := by
  refine ⟨?_, rfl, h.asName, rfl, h.imports⟩
  have hpath := segmentsPath_concat t.spelling.prefixes t.spelling.own
  rw [← h.groupPath, ← h.name] at hpath
  exact hpath.symm

theorem Spells.next (h : t.Spells d) (p : Piece) : (t.next p).Spells (d.next p) := by
  rw [SpelledDraft.next, Draft.next]
  split
  · exact h.extend p
  · cases p.kind with
    | kwAs => exact h.announceAlias
    | comma | semicolon => exact h.closeImport
    | lBrace => exact h.openGroup p.span
    | _ => exact h

theorem Spells.readAll (h : t.Spells d) (ps : List Piece) :
    (t.readAll ps).Spells (d.readAll ps).1 := by
  induction ps generalizing t d with
  | nil => exact h
  | cons p ps ih =>
    rw [SpelledDraft.readAll, Draft.readAll]
    split
    · exact h.next p
    · exact ih (h.next p)

end SpelledDraft

/-- The spellings of the imports of a file, in order. -/
def importSpellings : List Piece → List Spelling
  | [] => []
  | p :: ps =>
    if p.kind = .kwUse then (({} : SpelledDraft).readAll ps).closed ++ importSpellings ps
    else importSpellings ps

theorem importClauses_eq (ps : List Piece) :
    importClauses ps = (importSpellings ps).map (·.clause) := by
  induction ps with
  | nil => rfl
  | cons p ps ih =>
    rw [importClauses, importSpellings]
    split
    · rw [(SpelledDraft.spells_default.readAll ps).imports, ih, List.map_append]
    · exact ih

/-- The import that is spelled is kept, and none that is kept after it goes by its alias. -/
def Spelling.DecidesIn (xs : List Spelling) (x : Spelling) : Prop :=
  x.clause.IsKept ∧ ∃ before after, xs = before ++ x :: after ∧
    ∀ y ∈ after, y.clause.IsKept → y.clause.localName ≠ x.clause.localName

theorem Spelling.DecidesIn.mem {xs : List Spelling} {x : Spelling} (h : x.DecidesIn xs) :
    x ∈ xs := by
  obtain ⟨-, before, after, rfl, -⟩ := h
  simp

theorem ImportClause.decidesIn_map_clause {xs : List Spelling} {i : ImportClause} :
    i.DecidesIn (xs.map (·.clause)) ↔ ∃ x : Spelling, x.DecidesIn xs ∧ x.clause = i := by
  constructor
  · rintro ⟨hkept, before, after, hsplit, hafter⟩
    obtain ⟨before, rest, rfl, rfl, hrest⟩ := List.map_eq_append_iff.1 hsplit
    obtain ⟨x, after, rfl, rfl, rfl⟩ := List.map_eq_cons_iff.1 hrest
    exact ⟨x, ⟨hkept, before, after, rfl, fun y hy => hafter _ (List.mem_map_of_mem hy)⟩, rfl⟩
  · rintro ⟨x, ⟨hkept, before, after, rfl, hafter⟩, rfl⟩
    refine ⟨hkept, before.map (·.clause), after.map (·.clause), by simp, ?_⟩
    intro j hj hjkept
    obtain ⟨y, hy, rfl⟩ := List.mem_map.1 hj
    exact hafter y hy hjkept

theorem mem_entries_iff_spelled {ps : List Piece} {e : Text × Text} :
    e ∈ (FileImports.ofPieces ps).table.entries ↔
      ∃ x : Spelling, x.DecidesIn (importSpellings ps) ∧ x.clause.entry = e := by
  rw [mem_entries_ofPieces, importClauses_eq]
  constructor
  · rintro ⟨i, hi, rfl⟩
    obtain ⟨x, hx, rfl⟩ := ImportClause.decidesIn_map_clause.1 hi
    exact ⟨x, hx, rfl⟩
  · rintro ⟨x, hx, rfl⟩
    exact ⟨x.clause, ImportClause.decidesIn_map_clause.2 ⟨x, hx, rfl⟩, rfl⟩

/-! Every part of a spelling is a name part of the pieces that were read. -/

section Parts

variable {P : Piece → Prop}

/-- All segments of a spelling consist of pieces with the property. -/
def Spelling.PartsAll (P : Piece → Prop) (x : Spelling) : Prop :=
  ∀ parts ∈ x.segments, ∀ p ∈ parts, P p

/-- All spellings of a draft do. -/
structure SpelledDraft.PartsAll (P : Piece → Prop) (t : SpelledDraft) : Prop where
  spelling : t.spelling.PartsAll P
  closed : ∀ x ∈ t.closed, x.PartsAll P

theorem Spelling.PartsAll.with_own {x y : Spelling} (h : x.PartsAll P)
    (hprefixes : y.prefixes = x.prefixes) (hown : ∀ p ∈ y.own, p ∈ x.own ∨ P p) : y.PartsAll P := by
  intro parts hparts p hp
  rcases List.mem_append.1 hparts with hparts | hparts
  · rw [hprefixes] at hparts
    exact h parts (List.mem_append_left _ hparts) p hp
  · obtain rfl := List.mem_singleton.1 hparts
    rcases hown p hp with hp | hp
    · exact h x.own (List.mem_append_right _ List.mem_cons_self) p hp
    · exact hp

theorem SpelledDraft.PartsAll.next {t : SpelledDraft} (h : t.PartsAll P) (p : Piece)
    (hp : p.kind.isNamePart = true → P p) : (t.next p).PartsAll P := by
  have hempty : ∀ x : Spelling, x.prefixes = t.spelling.prefixes → x.own = [] → x.PartsAll P :=
    fun x hx hown => h.spelling.with_own hx (by simp [hown])
  rw [SpelledDraft.next]
  split
  · next hpart =>
    rw [SpelledDraft.extend]
    cases t.spelling.asParts with
    | some read => exact ⟨h.spelling.with_own rfl (fun q hq => Or.inl hq), h.closed⟩
    | none =>
      refine ⟨h.spelling.with_own rfl ?_, h.closed⟩
      intro q hq
      rcases List.mem_append.1 hq with hq | hq
      · exact Or.inl hq
      · obtain rfl := List.mem_singleton.1 hq
        exact Or.inr (hp hpart)
  · have hclose : t.closeImport.PartsAll P := by
      refine ⟨hempty _ rfl rfl, ?_⟩
      intro x hx
      rw [SpelledDraft.closeImport] at hx
      simp only at hx
      split at hx
      · exact h.closed x hx
      · rcases List.mem_append.1 hx with hx | hx
        · exact h.closed x hx
        · obtain rfl := List.mem_singleton.1 hx
          exact h.spelling
    split
    · exact ⟨h.spelling.with_own rfl (fun q hq => Or.inl hq), h.closed⟩
    · exact hclose
    · exact hclose
    · refine ⟨?_, h.closed⟩
      intro parts hparts q hq
      rcases List.mem_append.1 hparts with hparts | hparts
      · exact h.spelling parts hparts q hq
      · obtain rfl := List.mem_singleton.1 hparts
        cases hq
    · exact h

theorem SpelledDraft.PartsAll.readAll {t : SpelledDraft} (h : t.PartsAll P) (ps : List Piece)
    (hps : ∀ p ∈ ps, p.kind.isNamePart = true → P p) : (t.readAll ps).PartsAll P := by
  induction ps generalizing t with
  | nil => exact h
  | cons p ps ih =>
    have hp := h.next p (hps p List.mem_cons_self)
    rw [SpelledDraft.readAll]
    split
    · exact hp
    · exact ih hp (fun q hq => hps q (List.mem_cons_of_mem p hq))

theorem partsAll_of_mem_importSpellings {ps : List Piece}
    (hps : ∀ p ∈ ps, p.kind.isNamePart = true → P p) :
    ∀ x ∈ importSpellings ps, x.PartsAll P := by
  induction ps with
  | nil => intro x hx; cases hx
  | cons p ps ih =>
    have hps' : ∀ q ∈ ps, q.kind.isNamePart = true → P q :=
      fun q hq => hps q (List.mem_cons_of_mem p hq)
    have hstart : ({} : SpelledDraft).PartsAll P := by
      refine ⟨?_, by intro x hx; cases hx⟩
      intro parts hparts q hq
      obtain rfl := List.mem_singleton.1 hparts
      cases hq
    intro x hx
    rw [importSpellings] at hx
    split at hx
    · rcases List.mem_append.1 hx with hx | hx
      · exact (hstart.readAll ps hps').closed x hx
      · exact ih hps' x hx
    · exact ih hps' x hx

end Parts

end PhpImports
