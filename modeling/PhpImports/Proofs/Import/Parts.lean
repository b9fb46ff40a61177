import PhpImports.Proofs.Import.Spelling
import Mathlib.Data.List.DropRight
import Mathlib.Data.List.Infix

/-!
# The parts of a statement

Read as a whole, a statement is a list of parts between commas. Each part that is closed spells one
import: the prefixes are what stands before the braces so far, its own name is what stands behind
its last brace and before the word for an alias, and the alias is what stands behind that word. The
draft that reads piece after piece arrives at the same imports (`imports_readAll_eq`), provided no
brace follows the word for an alias inside a part.
-/

namespace PhpImports

/-- Kinds that a draft takes notice of. -/
def TokenKind.isRead (k : TokenKind) : Bool :=
  k.isNamePart || k = .kwAs || k = .comma || k = .semicolon || k = .lBrace

theorem TokenKind.ne_semicolon_of_not_isRead {k : TokenKind} (h : k.isRead = false) :
    k ≠ .semicolon := by
  rintro rfl
  cases h

/-- The runs without a comma before the first semicolon. The last run counts only if there is a
semicolon to end it. -/
def closedParts (ps : List Piece) : List (List Piece) :=
  let parts := (ps.takeWhile (·.kind ≠ .semicolon)).splitOnP (·.kind = .comma)
  if ps.any (·.kind = .semicolon) then parts else parts.dropLast

def NoBraceAfterAs (part : List Piece) : Prop :=
  part.Pairwise fun p q => ¬ (p.kind = .kwAs ∧ q.kind = .lBrace)

instance (part : List Piece) : Decidable (NoBraceAfterAs part) :=
  inferInstanceAs (Decidable (part.Pairwise _))

def nameParts (ps : List Piece) : List Piece :=
  ps.filter (·.kind.isNamePart)

/-- What stands behind the last brace of a part, or all of it. -/
def lastSegment (part : List Piece) : List Piece :=
  part.rtakeWhile (·.kind ≠ .lBrace)

/-- The name parts before each brace of a part. -/
def prefixParts (part : List Piece) : List (List Piece) :=
  (part.splitOnP (·.kind = .lBrace)).dropLast.map nameParts

def ownParts (part : List Piece) : List Piece :=
  nameParts ((lastSegment part).takeWhile (·.kind ≠ .kwAs))

def aliasParts? (part : List Piece) : Option (List Piece) :=
  if part.any (·.kind = .kwAs) then some (nameParts (part.dropWhile (·.kind ≠ .kwAs))) else none

/-- What the last of some parts spells, those before it giving their prefixes. -/
def Spelling.ofParts (parts : List (List Piece)) : Spelling where
  prefixes := parts.flatMap prefixParts
  own := ownParts (parts.getLastD [])
  asParts := aliasParts? (parts.getLastD [])
  covered := nameParts (lastSegment (parts.getLastD []))

/-- What each of some parts spells, those without a name of their own left out. -/
def partSpellings (parts : List (List Piece)) : List Spelling :=
  (parts.inits.tail.map Spelling.ofParts).filter fun x => Piece.texts x.own ≠ []

theorem closedParts_of_open {part : List Piece}
    (h : ∀ p ∈ part, p.kind ≠ .comma ∧ p.kind ≠ .semicolon) : closedParts part = [] := by
  have hsemicolon : part.any (·.kind = .semicolon) = false := by
    simpa using fun p hp => (h p hp).2
  have htake : part.takeWhile (·.kind ≠ .semicolon) = part :=
    List.takeWhile_eq_self_iff.2 fun p hp => by simpa using (h p hp).2
  have hsplit : part.splitOnP (·.kind = .comma) = [part] :=
    List.splitOnP_eq_singleton fun p hp => by simpa using (h p hp).1
  rw [closedParts, hsemicolon, htake, hsplit]
  rfl

theorem closedParts_comma {part : List Piece}
    (h : ∀ p ∈ part, p.kind ≠ .comma ∧ p.kind ≠ .semicolon) {q : Piece} (hq : q.kind = .comma)
    (qs : List Piece) : closedParts (part ++ q :: qs) = part :: closedParts qs := by
  have hany : (part ++ q :: qs).any (·.kind = .semicolon) = qs.any (·.kind = .semicolon) := by
    have hpart : part.any (·.kind = .semicolon) = false := by
      simpa using fun p hp => (h p hp).2
    simp [hpart, hq]
  have htake : (part ++ q :: qs).takeWhile (·.kind ≠ .semicolon) =
      part ++ q :: qs.takeWhile (·.kind ≠ .semicolon) := by
    rw [List.takeWhile_append_of_pos fun p hp => by simpa using (h p hp).2,
      List.takeWhile_cons_of_pos (by simp [hq])]
  have hsplit := @List.splitOnP_append_cons_of_forall_mem _ (fun p : Piece => p.kind = .comma) part
    (fun p hp => by simpa using (h p hp).1) q (by simp [hq])
  have hne := List.splitOnP_ne_nil (fun p : Piece => p.kind = .comma)
    (qs.takeWhile (·.kind ≠ .semicolon))
  rw [closedParts, closedParts, hany, htake, hsplit]
  split
  · rfl
  · exact List.dropLast_cons_of_ne_nil hne

theorem closedParts_semicolon {part : List Piece}
    (h : ∀ p ∈ part, p.kind ≠ .comma ∧ p.kind ≠ .semicolon) {q : Piece} (hq : q.kind = .semicolon)
    (qs : List Piece) : closedParts (part ++ q :: qs) = [part] := by
  have htake : (part ++ q :: qs).takeWhile (·.kind ≠ .semicolon) = part := by
    rw [List.takeWhile_append_of_pos fun p hp => by simpa using (h p hp).2,
      List.takeWhile_cons_of_neg (by simp [hq]), List.append_nil]
  have hsplit : part.splitOnP (·.kind = .comma) = [part] :=
    List.splitOnP_eq_singleton fun p hp => by simpa using (h p hp).1
  rw [closedParts, htake, hsplit, if_pos (by simp [hq])]

/-- How pieces fall into closed parts: commas end them and the first semicolon ends the last, or
there is no semicolon and what stands behind the last comma is left over. -/
inductive InParts : List Piece → List (List Piece) → Prop
  | left {part : List Piece} (whole : ∀ p ∈ part, p.kind ≠ .comma ∧ p.kind ≠ .semicolon) :
    InParts part []
  | comma {part qs : List Piece} {q : Piece} {parts : List (List Piece)}
      (whole : ∀ p ∈ part, p.kind ≠ .comma ∧ p.kind ≠ .semicolon) (ends : q.kind = .comma)
      (later : InParts qs parts) : InParts (part ++ q :: qs) (part :: parts)
  | semicolon {part qs : List Piece} {q : Piece}
      (whole : ∀ p ∈ part, p.kind ≠ .comma ∧ p.kind ≠ .semicolon) (ends : q.kind = .semicolon) :
    InParts (part ++ q :: qs) [part]

theorem inParts_append {part : List Piece}
    (h : ∀ p ∈ part, p.kind ≠ .comma ∧ p.kind ≠ .semicolon) (ps : List Piece) :
    InParts (part ++ ps) (closedParts (part ++ ps)) := by
  induction ps generalizing part with
  | nil =>
    rw [List.append_nil, closedParts_of_open h]
    exact .left h
  | cons p ps ih =>
    by_cases hsemicolon : p.kind = .semicolon
    · rw [closedParts_semicolon h hsemicolon]
      exact .semicolon h hsemicolon
    · by_cases hcomma : p.kind = .comma
      · rw [closedParts_comma h hcomma]
        exact .comma h hcomma (ih (List.forall_mem_nil _))
      · have hjoined : ∀ q ∈ part ++ [p], q.kind ≠ .comma ∧ q.kind ≠ .semicolon :=
          List.forall_mem_append.2 ⟨h, List.forall_mem_singleton.2 ⟨hcomma, hsemicolon⟩⟩
        have hshift : part ++ p :: ps = part ++ [p] ++ ps := by simp
        rw [hshift]
        exact ih hjoined

theorem inParts_closedParts (ps : List Piece) : InParts ps (closedParts ps) :=
  inParts_append (List.forall_mem_nil _) ps

/-! A part that goes on behind a brace adds one prefix to what comes behind that brace. -/

section Segments

variable {segment : List Piece}

theorem prefixParts_of_no_brace (h : ∀ p ∈ segment, p.kind ≠ .lBrace) :
    prefixParts segment = [] := by
  have hsplit : segment.splitOnP (·.kind = .lBrace) = [segment] :=
    List.splitOnP_eq_singleton fun p hp => by simpa using h p hp
  rw [prefixParts, hsplit]
  rfl

theorem lastSegment_of_no_brace (h : ∀ p ∈ segment, p.kind ≠ .lBrace) :
    lastSegment segment = segment :=
  List.rtakeWhile_eq_self_iff.2 fun p hp => by simpa using h p hp

theorem prefixParts_brace (h : ∀ p ∈ segment, p.kind ≠ .lBrace) {brace : Piece}
    (hbrace : brace.kind = .lBrace) (rest : List Piece) :
    prefixParts (segment ++ brace :: rest) = nameParts segment :: prefixParts rest := by
  have hsplit := @List.splitOnP_append_cons_of_forall_mem _ (fun p : Piece => p.kind = .lBrace)
    segment (fun p hp => by simpa using h p hp) brace (by simp [hbrace]) rest
  have hne := List.splitOnP_ne_nil (fun p : Piece => p.kind = .lBrace) rest
  rw [prefixParts, hsplit, List.dropLast_cons_of_ne_nil hne]
  rfl

theorem lastSegment_brace (segment : List Piece) {brace : Piece} (hbrace : brace.kind = .lBrace)
    (rest : List Piece) : lastSegment (segment ++ brace :: rest) = lastSegment rest := by
  induction rest using List.reverseRecOn with
  | nil => exact List.rtakeWhile_concat_neg _ _ _ (by simp [hbrace])
  | append_singleton rest p ih =>
    rw [← List.cons_append, ← List.append_assoc, lastSegment, lastSegment]
    by_cases hp : p.kind = .lBrace
    · rw [List.rtakeWhile_concat_neg _ _ _ (by simp [hp]),
        List.rtakeWhile_concat_neg _ _ _ (by simp [hp])]
    · rw [List.rtakeWhile_concat_pos _ _ _ (by simp [hp]),
        List.rtakeWhile_concat_pos _ _ _ (by simp [hp])]
      exact congrArg (· ++ [p]) ih

theorem aliasParts?_append (h : ∀ p ∈ segment, p.kind ≠ .kwAs) (rest : List Piece) :
    aliasParts? (segment ++ rest) = aliasParts? rest := by
  have hany : segment.any (·.kind = .kwAs) = false := by simpa using h
  rw [aliasParts?, aliasParts?, List.any_append, hany, Bool.false_or,
    List.dropWhile_append_of_pos fun p hp => by simpa using h p hp]

theorem nameParts_as {word : Piece} (hword : word.kind = .kwAs) (rest : List Piece) :
    nameParts (word :: rest) = nameParts rest := by
  rw [nameParts, List.filter_cons_of_neg (by rw [hword]; decide)]
  rfl

theorem aliasParts?_as {word : Piece} (hword : word.kind = .kwAs) (rest : List Piece) :
    aliasParts? (word :: rest) = some (nameParts rest) := by
  rw [aliasParts?, if_pos (by simp [hword]), List.dropWhile_cons_of_neg (by simp [hword]),
    nameParts_as hword]

end Segments

namespace SpelledDraft

/-- The draft that starts to read the part behind these parts. -/
def behindParts (parts : List (List Piece)) : SpelledDraft where
  spelling := ⟨parts.flatMap prefixParts, [], none, []⟩
  closed := partSpellings parts

/-- Behind the word for an alias, name parts extend the alias. -/
theorem foldl_next_alias (x : Spelling) (closed : List Spelling) {read : List Piece}
    (hread : x.asParts = some read) {ps : List Piece}
    (h : ∀ p ∈ ps, p.kind ≠ .comma ∧ p.kind ≠ .semicolon ∧ p.kind ≠ .lBrace) :
    ps.foldl next ⟨x, closed⟩ =
      ⟨⟨x.prefixes, x.own, some (read ++ nameParts ps), x.covered ++ nameParts ps⟩, closed⟩ := by
  induction ps generalizing x read with
  | nil =>
    obtain ⟨prefixes, own, asParts, covered⟩ := x
    obtain rfl : asParts = some read := hread
    simp [nameParts]
  | cons p ps ih =>
    obtain ⟨hp, hps⟩ := List.forall_mem_cons.1 h
    rw [List.foldl_cons]
    by_cases hpart : p.kind.isNamePart = true
    · have hnext : next ⟨x, closed⟩ p =
          ⟨⟨x.prefixes, x.own, some (read ++ [p]), x.covered ++ [p]⟩, closed⟩ := by
        rw [next, if_pos hpart, extend]
        simp only [hread]
      rw [hnext, ih _ rfl hps]
      simp [nameParts, hpart]
    · have hskip : nameParts (p :: ps) = nameParts ps := by simp [nameParts, hpart]
      have hnext : next ⟨x, closed⟩ p = ⟨x, closed⟩ := by
        rw [next, if_neg hpart]
        split
        · rw [announceAlias]
          simp only [hread, Option.getD_some]
          rw [← hread]
        · next hkind => exact absurd hkind hp.1
        · next hkind => exact absurd hkind hp.2.1
        · next hkind => exact absurd hkind hp.2.2
        · rfl
      rw [hnext, ih x hread hps, hskip]

theorem next_of_not_isRead {p : Piece} (h : p.kind.isRead = false) (t : SpelledDraft) :
    t.next p = t := by
  cases hkind : p.kind with
  | ident | nsSeparator | nameQualified | nameFullyQualified | nameRelative | kwAs | comma
  | semicolon | lBrace =>
    rw [hkind] at h
    cases h
  | _ =>
    rw [next, hkind]
    rfl

/-- A piece that is neither a brace nor the word for an alias joins what is read of a name. -/
theorem next_joins (segment : List Piece) {p : Piece} (hp : p.kind ≠ .comma ∧ p.kind ≠ .semicolon)
    (hbrace : p.kind ≠ .lBrace) (hword : p.kind ≠ .kwAs) (prefixes : List (List Piece))
    (closed : List Spelling) :
    next ⟨⟨prefixes, nameParts segment, none, nameParts segment⟩, closed⟩ p =
      ⟨⟨prefixes, nameParts (segment ++ [p]), none, nameParts (segment ++ [p])⟩, closed⟩ := by
  by_cases hpart : p.kind.isNamePart = true
  · rw [next, if_pos hpart, extend]
    simp [nameParts, hpart]
  · have hread : p.kind.isRead = false := by
      simp [TokenKind.isRead, hpart, hword, hp.1, hp.2, hbrace]
    rw [next_of_not_isRead hread]
    simp [nameParts, hpart]

/-- What a part without a brace leaves to be closed, if it has the word for an alias. -/
theorem foldl_next_word {segment : List Piece}
    (hsegment : ∀ p ∈ segment, p.kind ≠ .lBrace ∧ p.kind ≠ .kwAs) {word : Piece}
    (hword : word.kind = .kwAs) {ps : List Piece}
    (h : ∀ p ∈ ps, p.kind ≠ .comma ∧ p.kind ≠ .semicolon ∧ p.kind ≠ .lBrace)
    (prefixes : List (List Piece)) (closed : List Spelling) :
    (word :: ps).foldl next ⟨⟨prefixes, nameParts segment, none, nameParts segment⟩, closed⟩ =
      ⟨⟨prefixes ++ prefixParts (segment ++ word :: ps), ownParts (segment ++ word :: ps),
        aliasParts? (segment ++ word :: ps), nameParts (lastSegment (segment ++ word :: ps))⟩,
        closed⟩ := by
  have hwords : ∀ p ∈ segment, p.kind ≠ .kwAs := fun p hp => (hsegment p hp).2
  have hbraces : ∀ p ∈ segment ++ word :: ps, p.kind ≠ .lBrace :=
    List.forall_mem_append.2 ⟨fun p hp => (hsegment p hp).1,
      List.forall_mem_cons.2 ⟨by simp [hword], fun p hp => (h p hp).2.2⟩⟩
  have hnext : next ⟨⟨prefixes, nameParts segment, none, nameParts segment⟩, closed⟩ word =
      ⟨⟨prefixes, nameParts segment, some [], nameParts segment⟩, closed⟩ := by
    rw [next, hword]
    rfl
  have hcut : (segment ++ word :: ps).takeWhile (·.kind ≠ .kwAs) = segment := by
    rw [List.takeWhile_append_of_pos fun p hp => by simpa using hwords p hp,
      List.takeWhile_cons_of_neg (by simp [hword]), List.append_nil]
  have hnames : nameParts (segment ++ word :: ps) = nameParts segment ++ nameParts ps := by
    rw [nameParts, List.filter_append]
    exact congrArg (nameParts segment ++ ·) (nameParts_as hword ps)
  rw [List.foldl_cons, hnext, foldl_next_alias _ closed rfl h, prefixParts_of_no_brace hbraces,
    ownParts, lastSegment_of_no_brace hbraces, hcut, aliasParts?_append hwords,
    aliasParts?_as hword, hnames, List.append_nil]
  rfl

/-- What a part leaves to be closed; `segment` is what was read behind its last brace so far. -/
theorem foldl_next_segment {segment : List Piece}
    (hsegment : ∀ p ∈ segment, p.kind ≠ .lBrace ∧ p.kind ≠ .kwAs) {ps : List Piece}
    (h : ∀ p ∈ ps, p.kind ≠ .comma ∧ p.kind ≠ .semicolon) (has : NoBraceAfterAs ps)
    (prefixes : List (List Piece)) (closed : List Spelling) :
    ps.foldl next ⟨⟨prefixes, nameParts segment, none, nameParts segment⟩, closed⟩ =
      ⟨⟨prefixes ++ prefixParts (segment ++ ps), ownParts (segment ++ ps),
        aliasParts? (segment ++ ps), nameParts (lastSegment (segment ++ ps))⟩, closed⟩ := by
  induction ps generalizing segment prefixes with
  | nil =>
    have hbraces : ∀ p ∈ segment, p.kind ≠ .lBrace := fun p hp => (hsegment p hp).1
    have hwords : ∀ p ∈ segment, p.kind ≠ .kwAs := fun p hp => (hsegment p hp).2
    have hcut : segment.takeWhile (·.kind ≠ .kwAs) = segment :=
      List.takeWhile_eq_self_iff.2 fun p hp => by simpa using hwords p hp
    have halias : aliasParts? segment = none := by
      have happend := aliasParts?_append hwords []
      rwa [List.append_nil] at happend
    rw [List.append_nil, List.foldl_nil, prefixParts_of_no_brace hbraces, ownParts,
      lastSegment_of_no_brace hbraces, hcut, halias, List.append_nil]
  | cons p ps ih =>
    obtain ⟨hp, hps⟩ := List.forall_mem_cons.1 h
    obtain ⟨hafter, hasRest⟩ := List.pairwise_cons.1 has
    by_cases hbrace : p.kind = .lBrace
    · have hbraces : ∀ q ∈ segment, q.kind ≠ .lBrace := fun q hq => (hsegment q hq).1
      have hwords : ∀ q ∈ segment ++ [p], q.kind ≠ .kwAs :=
        List.forall_mem_append.2 ⟨fun q hq => (hsegment q hq).2,
          List.forall_mem_singleton.2 (by simp [hbrace])⟩
      have hnext : next ⟨⟨prefixes, nameParts segment, none, nameParts segment⟩, closed⟩ p =
          ⟨⟨prefixes ++ [nameParts segment], nameParts [], none, nameParts []⟩, closed⟩ := by
        rw [next, hbrace]
        rfl
      have halias := aliasParts?_append hwords ps
      rw [List.append_assoc, List.singleton_append] at halias
      rw [List.foldl_cons, hnext, ih (List.forall_mem_nil _) hps hasRest, List.nil_append,
        prefixParts_brace hbraces hbrace, ownParts, ownParts, lastSegment_brace segment hbrace,
        halias, List.append_assoc, List.singleton_append]
    · by_cases hword : p.kind = .kwAs
      · exact foldl_next_word hsegment hword
          (fun q hq => ⟨(hps q hq).1, (hps q hq).2, fun hkind => hafter q hq ⟨hword, hkind⟩⟩)
          prefixes closed
      · have hjoined : ∀ q ∈ segment ++ [p], q.kind ≠ .lBrace ∧ q.kind ≠ .kwAs :=
          List.forall_mem_append.2 ⟨hsegment, List.forall_mem_singleton.2 ⟨hbrace, hword⟩⟩
        rw [List.foldl_cons, next_joins segment hp hbrace hword, ih hjoined hps hasRest,
          List.append_assoc, List.singleton_append]

theorem foldl_next_part {part : List Piece}
    (h : ∀ p ∈ part, p.kind ≠ .comma ∧ p.kind ≠ .semicolon) (has : NoBraceAfterAs part)
    (parts : List (List Piece)) :
    part.foldl next (behindParts parts) =
      ⟨Spelling.ofParts (parts ++ [part]), partSpellings parts⟩ := by
  have hrun := foldl_next_segment (List.forall_mem_nil _) h has (parts.flatMap prefixParts)
    (partSpellings parts)
  rw [List.nil_append] at hrun
  simpa [Spelling.ofParts, behindParts, nameParts] using hrun

theorem partSpellings_concat (parts : List (List Piece)) (part : List Piece) :
    partSpellings (parts ++ [part]) = partSpellings parts ++
      if Piece.texts (ownParts part) = [] then [] else [Spelling.ofParts (parts ++ [part])] := by
  have hinits : (parts ++ [part]).inits.tail = parts.inits.tail ++ [parts ++ [part]] := by
    rw [List.inits_append]
    cases parts <;> simp
  have hown : (Spelling.ofParts (parts ++ [part])).own = ownParts part := by
    simp [Spelling.ofParts]
  rw [partSpellings, hinits, List.map_append, List.filter_append, List.map_singleton,
    List.filter_singleton, hown]
  by_cases hempty : Piece.texts (ownParts part) = []
  · simp [hempty, partSpellings]
  · simp [hempty, partSpellings]

theorem closeImport_part (parts : List (List Piece)) (part : List Piece) :
    closeImport ⟨Spelling.ofParts (parts ++ [part]), partSpellings parts⟩ =
      behindParts (parts ++ [part]) := by
  rw [closeImport, behindParts, partSpellings_concat]
  simp only [Spelling.ofParts, List.getLastD_concat]
  split <;> simp

/-- The parts that are open leave no spelling behind. -/
theorem closed_foldl_next {part : List Piece}
    (h : ∀ p ∈ part, p.kind ≠ .comma ∧ p.kind ≠ .semicolon) (t : SpelledDraft) :
    (part.foldl next t).closed = t.closed := by
  induction part generalizing t with
  | nil => rfl
  | cons p part ih =>
    obtain ⟨hp, hpart⟩ := List.forall_mem_cons.1 h
    rw [List.foldl_cons, ih hpart, next]
    split
    · rw [extend]
      cases t.spelling.asParts <;> rfl
    · split
      · rfl
      · next hkind => exact absurd hkind hp.1
      · next hkind => exact absurd hkind hp.2
      · rfl
      · rfl

theorem readAll_append {part : List Piece}
    (h : ∀ p ∈ part, p.kind ≠ .comma ∧ p.kind ≠ .semicolon) (t : SpelledDraft) (ps : List Piece) :
    t.readAll (part ++ ps) = (part.foldl next t).readAll ps := by
  induction part generalizing t with
  | nil => rfl
  | cons p part ih =>
    obtain ⟨hp, hpart⟩ := List.forall_mem_cons.1 h
    rw [List.cons_append, readAll, if_neg hp.2, ih hpart, List.foldl_cons]

/-- What is read once a part is closed. -/
def closePart (t : SpelledDraft) (part : List Piece) : SpelledDraft :=
  (part.foldl next t).closeImport

/-- What is closed in the end was closed part by part. -/
theorem closed_readAll_eq {ps : List Piece} {parts : List (List Piece)} (h : InParts ps parts)
    (t : SpelledDraft) : (t.readAll ps).closed = (parts.foldl closePart t).closed := by
  induction h generalizing t with
  | @left part hpart =>
    have hread := readAll_append hpart t []
    rw [List.append_nil] at hread
    rw [hread, readAll, closed_foldl_next hpart]
    rfl
  | @comma part qs q parts hpart hq _ ih =>
    have hgoes : ¬ q.kind = .semicolon := by simp [hq]
    have hclose : (part.foldl next t).next q = t.closePart part := by
      rw [next, hq]
      rfl
    rw [readAll_append hpart, readAll, if_neg hgoes, hclose, ih, List.foldl_cons]
  | @semicolon part qs q hpart hq =>
    have hclose : (part.foldl next t).next q = t.closePart part := by
      rw [next, hq]
      rfl
    rw [readAll_append hpart, readAll, if_pos hq, hclose]
    rfl

theorem closePart_behindParts {part : List Piece}
    (h : ∀ p ∈ part, p.kind ≠ .comma ∧ p.kind ≠ .semicolon) (has : NoBraceAfterAs part)
    (parts : List (List Piece)) :
    (behindParts parts).closePart part = behindParts (parts ++ [part]) := by
  rw [closePart, foldl_next_part h has, closeImport_part]

theorem foldl_closePart {ps : List Piece} {xs : List (List Piece)} (h : InParts ps xs)
    (has : ∀ x ∈ xs, NoBraceAfterAs x) (parts : List (List Piece)) :
    xs.foldl closePart (behindParts parts) = behindParts (parts ++ xs) := by
  induction h generalizing parts with
  | left _ => rw [List.foldl_nil, List.append_nil]
  | comma hpart _ _ ih =>
    obtain ⟨hfirst, hlater⟩ := List.forall_mem_cons.1 has
    rw [List.foldl_cons, closePart_behindParts hpart hfirst, ih hlater, List.append_assoc,
      List.singleton_append]
  | semicolon hpart _ => exact closePart_behindParts hpart (has _ List.mem_cons_self) parts

/-- What is closed when `part` was read behind some parts and `ps` is read behind it. -/
theorem closed_readAll {part : List Piece}
    (h : ∀ p ∈ part, p.kind ≠ .comma ∧ p.kind ≠ .semicolon) {ps : List Piece}
    (has : ∀ x ∈ closedParts (part ++ ps), NoBraceAfterAs x) (parts : List (List Piece)) :
    ((part.foldl next (behindParts parts)).readAll ps).closed =
      partSpellings (parts ++ closedParts (part ++ ps)) := by
  have hparts := inParts_closedParts (part ++ ps)
  rw [← readAll_append h, closed_readAll_eq hparts, foldl_closePart hparts has]
  rfl

end SpelledDraft

theorem Draft.next_of_not_isRead {p : Piece} (h : p.kind.isRead = false) (d : Draft) :
    d.next p = d := by
  cases hkind : p.kind with
  | ident | nsSeparator | nameQualified | nameFullyQualified | nameRelative | kwAs | comma
  | semicolon | lBrace =>
    rw [hkind] at h
    cases h
  | _ =>
    rw [next, hkind]
    rfl

/-- Pieces that are of no kind a draft takes notice of can be left out. -/
theorem Draft.readAll_filter_isRead (ps : List Piece) (d : Draft) :
    d.readAll (ps.filter (·.kind.isRead)) = d.readAll ps := by
  induction ps generalizing d with
  | nil => rfl
  | cons p ps ih =>
    cases hread : p.kind.isRead with
    | true =>
      rw [List.filter_cons_of_pos (by simpa using hread), readAll, readAll, ih]
    | false =>
      rw [List.filter_cons_of_neg (by simp [hread]), ih, readAll,
        if_neg (TokenKind.ne_semicolon_of_not_isRead hread), next_of_not_isRead hread]

/-- The imports that a statement reads are those that its closed parts spell, in order, and nothing
but name parts, commas, braces, semicolons and the word for an alias has a say in the draft. -/
theorem imports_readAll_eq (ps : List Piece) (h : ∀ part ∈ closedParts ps, NoBraceAfterAs part) :
    (({} : Draft).readAll ps).1.imports = (partSpellings (closedParts ps)).map (·.clause) ∧
      ({} : Draft).readAll (ps.filter (·.kind.isRead)) = ({} : Draft).readAll ps := by
  have hspells := SpelledDraft.spells_default.readAll ps
  have hclosed := SpelledDraft.closed_readAll (List.forall_mem_nil _) h []
  rw [List.foldl_nil, List.nil_append, List.nil_append] at hclosed
  have hstart : SpelledDraft.behindParts [] = {} := rfl
  rw [hstart] at hclosed
  refine ⟨?_, Draft.readAll_filter_isRead ps {}⟩
  rw [hspells.imports, hclosed]

/-- A group of two, the first of them with an alias, and a part without a name before the end. -/
theorem imports_readAll_eq_group :
    let ps : List Piece :=
      [⟨.ident, ⟨4, 5⟩, ['A']⟩, ⟨.nsSeparator, ⟨5, 6⟩, ['\\']⟩, ⟨.lBrace, ⟨6, 7⟩, ['\x7b']⟩,
       ⟨.ident, ⟨7, 8⟩, ['B']⟩, ⟨.kwAs, ⟨9, 11⟩, ['a', 's']⟩, ⟨.ident, ⟨12, 13⟩, ['C']⟩,
       ⟨.comma, ⟨13, 14⟩, [',']⟩, ⟨.ident, ⟨14, 15⟩, ['D']⟩, ⟨.comma, ⟨15, 16⟩, [',']⟩,
       ⟨.rBrace, ⟨16, 17⟩, ['\x7d']⟩, ⟨.semicolon, ⟨17, 18⟩, [';']⟩]
    (∀ part ∈ closedParts ps, NoBraceAfterAs part) ∧
      (({} : Draft).readAll ps).1.imports = (partSpellings (closedParts ps)).map (·.clause) ∧
      (({} : Draft).readAll ps).1.imports.map (fun i => (i.name, i.asName)) =
        [(['\\', 'A', '\\', 'B'], some ['C']), (['\\', 'A', '\\', 'D'], none)] := by
  intro ps
  have hparts : ∀ part ∈ closedParts ps, NoBraceAfterAs part := by decide
  exact ⟨hparts, (imports_readAll_eq ps hparts).1, by decide⟩

end PhpImports
