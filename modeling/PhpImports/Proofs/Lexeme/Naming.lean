import PhpImports.Proofs.Cursor.Basic
import PhpImports.Proofs.Lexeme.Placed
import PhpImports.Proofs.Printed.Name

/-!
# The lexical grammar of names and reserved words

Of which labels and separators a word is made is told by its kind, and so is what cannot go on
behind it. A label is a reserved word exactly if it is in the table in lower case and is not behind
a member access, whatever blanks and comments stand between (`isWord_of_token`). Looking for a
reserved word can be left out for long labels and those beyond ASCII, since none of them is one
(`Keyword.lookup_eq`).
-/

namespace PhpImports

namespace Keyword

/-- Every reserved word in lower case, with its kind. -/
def table : List (Text × TokenKind) :=
  marked ++ plain.map fun word => (word, .keyword)

theorem lookup_map_const (words : List Text) (kind : TokenKind) (word : Text) :
    (words.map fun w => (w, kind)).lookup word =
      if words.contains word then some kind else none := by
  induction words with
  | nil => rfl
  | cons w words ih =>
    rw [List.map_cons, List.lookup_cons, ih, List.contains_cons]
    cases word == w <;> rfl

theorem kind?_eq (label : Text) : kind? label = table.lookup label.toLower := by
  rw [table, List.lookup_append, lookup_map_const]
  rfl

/-- No word is in the table twice. -/
theorem kind?_eq_some_iff {label : Text} {kind : TokenKind} :
    kind? label = some kind ↔ (label.toLower, kind) ∈ table := by
  have hentries : ∀ e ∈ table, table.lookup e.1 = some e.2 := by decide +kernel
  rw [kind?_eq]
  exact ⟨Lead.mem_of_lookup, hentries _⟩

/-- The bytes of the longest reserved word. -/
def maxSize : Nat := 15

/-- The kind of a reserved word, which is looked for only if the label is short enough and ASCII. -/
def lookup (label : Text) : Option TokenKind :=
  if maxSize < label.size ∨ ¬ Cursor.IsAscii label then none else table.lookup label.toLower

theorem isAscii_of_mem_table :
    ∀ e ∈ table, Cursor.IsAscii e.1 ∧ e.1.length ≤ maxSize := by
  decide +kernel

/-- The guards leave no reserved word out. -/
theorem lookup_eq (label : Text) : lookup label = kind? label := by
  rw [lookup]
  split
  · next hguard =>
    cases hkind : kind? label with
    | none => rfl
    | some kind =>
      obtain ⟨hascii, hlength⟩ := isAscii_of_mem_table _ (kind?_eq_some_iff.1 hkind)
      have hlabel := Cursor.isAscii_of_toLower hascii
      rw [Text.toLower, List.length_map, ← Cursor.size_ascii hlabel] at hlength
      rcases hguard with hlong | hother
      · omega
      · exact absurd hlabel hother
  · exact (kind?_eq label).symm

end Keyword

namespace Lexeme

open Printed (Label)

/-- Labels with a separator before each. -/
def segments (ls : List Label) : Text :=
  ls.flatMap fun l => PhpImports.separator :: l.text

/-- The kinds of single labels. -/
def labelKinds : List TokenKind :=
  .ident :: Keyword.kinds

/-- The kinds of names with separators in them. -/
def pathKinds : List TokenKind :=
  [.nameQualified, .nameRelative, .nameFullyQualified]

def wordKinds : List TokenKind :=
  labelKinds ++ pathKinds ++ [.variable, .nsSeparator]

/-- The characters of a word of this kind, and what is behind it. -/
structure IsWord (kind : TokenKind) (afterAccess : Bool) (word behind : Text) : Prop where
  /-- In code, single labels are words of one label. -/
  label : kind ∈ labelKinds ↔ kind ≠ .inlineHtml ∧ ∃ l : Label, word = l.text
  qualified : kind = .nameQualified ∨ kind = .nameRelative →
    ∃ (first : Label) (rest : List Label), word = first.text ++ segments rest ∧ rest ≠ [] ∧
      (kind = .nameRelative ↔ first.text.toLower = "namespace".toList)
  fullyQualified : kind = .nameFullyQualified → ∃ ls : List Label, word = segments ls ∧ ls ≠ []
  dollarName : kind = .variable → ∃ l : Label, word = '$' :: l.text
  separator : kind = .nsSeparator → word = [PhpImports.separator] ∧ behind.startsLabel = false
  /-- No label goes on behind a word. -/
  ends : kind ∈ wordKinds → kind ≠ .nsSeparator → behind.head?.any isLabelChar = false
  /-- No segment goes on behind a name. -/
  unsegmented : kind ∈ labelKinds ++ pathKinds →
    ∀ r : Text, behind = PhpImports.separator :: r → r.startsLabel = false
  reserved : kind ∈ labelKinds → (kind ∈ Keyword.kinds ↔
    afterAccess = false ∧ ∃ reservedKind, (word.toLower, reservedKind) ∈ Keyword.table)
  /-- The kind of a reserved word is that of the table. -/
  tabled : kind ∈ Keyword.kinds → (word.toLower, kind) ∈ Keyword.table

variable {kind : TokenKind} {afterAccess : Bool} {n x : Text}

theorem exists_label (hstarts : n.startsLabel = true) (hlabel : ∀ c ∈ n, isLabelChar c = true) :
    ∃ l : Label, n = l.text := by
  cases n with
  | nil => cases hstarts
  | cons c n =>
    exact ⟨⟨c, n, hstarts, fun d hd => hlabel d (List.mem_cons_of_mem c hd)⟩, rfl⟩

theorem Label.startsLabel_text (l : Label) : l.text.startsLabel = true :=
  l.isStart

theorem startsLabel_segments (ls : List Label) : (segments ls).startsLabel = false := by
  cases ls with
  | nil => rfl
  | cons l ls => exact isLabelStart_separator

/-- A run of a name is the rest of a label and the segments behind it. -/
theorem exists_segments (hrun : nameRun (n ++ x) = (n, x)) :
    ∃ (tail : Text) (ls : List Label), (∀ c ∈ tail, isLabelChar c = true) ∧
      n = tail ++ segments ls := by
  induction n with
  | nil => exact ⟨[], [], by simp, rfl⟩
  | cons c n ih =>
    rw [List.cons_append, nameRun_cons] at hrun
    split at hrun
    · next hname =>
      simp only [Prod.mk.injEq, List.cons.injEq, true_and] at hrun
      have hrest : nameRun (n ++ x) = (n, x) := Prod.ext hrun.1 hrun.2
      obtain ⟨tail, ls, htail, rfl⟩ := ih hrest
      cases hc : isLabelChar c with
      | true => exact ⟨c :: tail, ls, by simpa [hc] using htail, rfl⟩
      | false =>
        obtain ⟨rfl, hstarts⟩ : c = PhpImports.separator ∧
            Text.startsLabel (tail ++ segments ls ++ x) = true := by
          simpa [Text.continuesName, hc] using hname
        have hlabel : tail.startsLabel = true := by
          have hrun' : (nameRun (PhpImports.separator :: (tail ++ segments ls ++ x))).1 =
              [] ++ PhpImports.separator :: (tail ++ segments ls) := by
            rw [nameRun_separator hstarts, hrest]
            rfl
          have hstarts' := startsLabel_of_nameRun hrun'
          cases tail with
          | nil =>
            rw [List.nil_append, startsLabel_segments] at hstarts'
            cases hstarts'
          | cons d tail => exact hstarts'
        obtain ⟨l, rfl⟩ := exists_label hlabel htail
        exact ⟨[], l :: ls, by simp, rfl⟩
    · next hname => cases congrArg Prod.fst hrun

/-- A name that starts with a label is that label and the segments behind it. -/
theorem exists_first (hstarts : n.startsLabel = true) (hrun : nameRun (n ++ x) = (n, x)) :
    ∃ (first : Label) (rest : List Label), n = first.text ++ segments rest := by
  obtain ⟨tail, ls, htail, rfl⟩ := exists_segments hrun
  cases tail with
  | nil =>
    rw [List.nil_append, startsLabel_segments] at hstarts
    cases hstarts
  | cons c tail =>
    obtain ⟨l, hl⟩ := exists_label (n := c :: tail) hstarts htail
    exact ⟨l, ls, by rw [hl]⟩

/-- Nothing that a name can go on with is behind it. -/
theorem ends_of_nameRun (hrun : nameRun (n ++ x) = (n, x)) : x.head?.any isLabelChar = false ∧
    ∀ r : Text, x = PhpImports.separator :: r → r.startsLabel = false := by
  have hstop : x.continuesName = false := by
    rcases (Text.breakAt_eq_iff.1 hrun).1 with rfl | hstop
    · rfl
    · simpa using hstop
  cases x with
  | nil => exact ⟨rfl, by simp⟩
  | cons c r =>
    rw [Text.continuesName, Bool.or_eq_false_iff] at hstop
    refine ⟨hstop.1, ?_⟩
    rintro r' hr
    obtain ⟨rfl, rfl⟩ := List.cons.inj hr
    simpa using hstop.2

theorem label_of_startsLabel_false (h : n.startsLabel = false) : ¬ ∃ l : Label, n = l.text := by
  rintro ⟨l, rfl⟩
  rw [Label.startsLabel_text] at h
  cases h

theorem notMem_labelKinds_iff {word : Text} (hkind : kind ∉ labelKinds)
    (hword : kind = .inlineHtml ∨ ¬ ∃ l : Label, word = l.text) :
    kind ∈ labelKinds ↔ kind ≠ .inlineHtml ∧ ∃ l : Label, word = l.text := by
  constructor
  · exact fun h => absurd h hkind
  · rintro ⟨hne, hlabel⟩
    exact absurd hlabel (hword.resolve_left hne)

/-- What is no word is no label, unless it is text outside code. -/
theorem IsWord.of_other (hkind : kind ∉ wordKinds)
    (hstarts : kind = .inlineHtml ∨ n.startsLabel = false) : IsWord kind afterAccess n x := by
  have hlabel : kind ∉ labelKinds := fun h =>
    hkind (List.mem_append_left _ (List.mem_append_left _ h))
  have hpath : kind ∉ labelKinds ++ pathKinds := fun h => hkind (List.mem_append_left _ h)
  exact {
    label := notMem_labelKinds_iff hlabel (hstarts.imp_right label_of_startsLabel_false)
    qualified := by rintro (rfl | rfl) <;> exact absurd (by decide) hkind
    fullyQualified := by rintro rfl; exact absurd (by decide) hkind
    dollarName := by rintro rfl; exact absurd (by decide) hkind
    separator := by rintro rfl; exact absurd (by decide) hkind
    ends := fun h => absurd h hkind
    unsegmented := fun h => absurd h hpath
    reserved := fun h => absurd h hlabel
    tabled := fun h => absurd (List.mem_cons_of_mem _ h) hlabel }

theorem nameKind_label (l : Label) : nameKind afterAccess l.text =
    if afterAccess then .ident else (Keyword.kind? l.text).getD .ident := by
  rw [nameKind, if_neg (by simpa using l.separator_notMem)]

theorem nameKind_path (first : Label) {rest : List Label} (hrest : rest ≠ []) :
    nameKind afterAccess (first.text ++ segments rest) =
      if first.text.toLower = "namespace".toList then .nameRelative else .nameQualified := by
  obtain ⟨l, ls, rfl⟩ := List.exists_cons_of_ne_nil hrest
  have hfirst : (first.text ++ segments (l :: ls)).takeWhile (· ≠ PhpImports.separator) =
      first.text := by
    refine (Text.takeWhile_append_eq ?_ (by simp [segments])).1
    intro c hc
    rw [decide_eq_true_iff]
    rintro rfl
    exact first.separator_notMem hc
  rw [nameKind, if_pos (by simp [segments]), hfirst]

theorem isWord_label (l : Label) (hrun : nameRun (l.text ++ x) = (l.text, x)) :
    IsWord (nameKind afterAccess l.text) afterAccess l.text x := by
  have hends := ends_of_nameRun hrun
  have hkinds : ∀ kind ∈ labelKinds, kind ≠ .inlineHtml ∧ kind ∉ pathKinds ∧ kind ≠ .variable ∧
      kind ≠ .nsSeparator := by decide
  have hident : TokenKind.ident ∉ Keyword.kinds := by decide
  have hlabel : nameKind afterAccess l.text ∈ labelKinds ∧
      (nameKind afterAccess l.text ∈ Keyword.kinds ↔ afterAccess = false ∧
        ∃ reservedKind, (l.text.toLower, reservedKind) ∈ Keyword.table) ∧
      (nameKind afterAccess l.text ∈ Keyword.kinds →
        (l.text.toLower, nameKind afterAccess l.text) ∈ Keyword.table) := by
    rw [nameKind_label]
    cases afterAccess with
    | true => exact ⟨List.mem_cons_self, by simp [hident], fun h => absurd h hident⟩
    | false =>
      rw [if_neg Bool.false_ne_true]
      cases hkind : Keyword.kind? l.text with
      | none =>
        have hnone : ∀ reservedKind, (l.text.toLower, reservedKind) ∉ Keyword.table := by
          intro reservedKind hmem
          rw [Keyword.kind?_eq_some_iff.2 hmem] at hkind
          cases hkind
        exact ⟨List.mem_cons_self, by simp [hident, hnone], fun h => absurd h hident⟩
      | some kind =>
        have hmem := Keyword.kind?_eq_some_iff.1 hkind
        have hreserved := Keyword.mem_kinds hkind
        exact ⟨List.mem_cons_of_mem _ hreserved,
          ⟨fun _ => ⟨rfl, kind, hmem⟩, fun _ => hreserved⟩, fun _ => hmem⟩
  obtain ⟨hmem, hreserved, htabled⟩ := hlabel
  obtain ⟨hhtml, hpath, hvariable, hseparator⟩ := hkinds _ hmem
  exact {
    label := ⟨fun _ => ⟨hhtml, l, rfl⟩, fun _ => hmem⟩
    qualified := by rintro (h | h) <;> exact absurd (by rw [h]; decide) hpath
    fullyQualified := fun h => absurd (by rw [h]; decide) hpath
    dollarName := fun h => absurd h hvariable
    separator := fun h => absurd h hseparator
    ends := fun _ _ => hends.1
    unsegmented := fun _ => hends.2
    reserved := fun _ => hreserved
    tabled := htabled }

theorem not_label_of_mem (h : PhpImports.separator ∈ n) : ¬ ∃ l : Label, n = l.text := by
  rintro ⟨l, rfl⟩
  exact l.separator_notMem h

theorem separator_mem_segments {ls : List Label} (hls : ls ≠ []) :
    PhpImports.separator ∈ segments ls := by
  obtain ⟨l, ls, rfl⟩ := List.exists_cons_of_ne_nil hls
  exact List.mem_cons_self

theorem isWord_path (first : Label) {rest : List Label} (hrest : rest ≠ [])
    (hrun : nameRun (first.text ++ segments rest ++ x) = (first.text ++ segments rest, x)) :
    IsWord (nameKind afterAccess (first.text ++ segments rest)) afterAccess
      (first.text ++ segments rest) x := by
  have hends := ends_of_nameRun hrun
  have hword := not_label_of_mem (List.mem_append_right first.text (separator_mem_segments hrest))
  have hkinds : ∀ kind, kind = .nameRelative ∨ kind = .nameQualified →
      kind ∉ labelKinds ∧ kind ≠ .nameFullyQualified ∧ kind ≠ .variable ∧
      kind ≠ .nsSeparator := by
    rintro kind (rfl | rfl) <;> decide
  have hkind : nameKind afterAccess (first.text ++ segments rest) = .nameRelative ∧
      first.text.toLower = "namespace".toList ∨
      nameKind afterAccess (first.text ++ segments rest) = .nameQualified ∧
      first.text.toLower ≠ "namespace".toList := by
    rw [nameKind_path first hrest]
    split
    · next h => exact Or.inl ⟨rfl, h⟩
    · next h => exact Or.inr ⟨rfl, h⟩
  have hrelative : nameKind afterAccess (first.text ++ segments rest) = .nameRelative ↔
      first.text.toLower = "namespace".toList := by
    rcases hkind with ⟨hkind, hlower⟩ | ⟨hkind, hlower⟩
    · exact ⟨fun _ => hlower, fun _ => hkind⟩
    · exact ⟨fun h => absurd (hkind.symm.trans h) (by decide), fun h => absurd h hlower⟩
  obtain ⟨hlabel, hfully, hvariable, hseparator⟩ := hkinds _ (hkind.imp And.left And.left)
  exact {
    label := notMem_labelKinds_iff hlabel (Or.inr hword)
    qualified := fun _ => ⟨first, rest, rfl, hrest, hrelative⟩
    fullyQualified := fun h => absurd h hfully
    dollarName := fun h => absurd h hvariable
    separator := fun h => absurd h hseparator
    ends := fun _ _ => hends.1
    unsegmented := fun _ => hends.2
    reserved := fun h => absurd h hlabel
    tabled := fun h => absurd (List.mem_cons_of_mem _ h) hlabel }

theorem isWord_fullyQualified (hstarts : n.startsLabel = true)
    (hrun : nameRun (n ++ x) = (n, x)) :
    IsWord .nameFullyQualified afterAccess (PhpImports.separator :: n) x := by
  obtain ⟨first, rest, rfl⟩ := exists_first hstarts hrun
  have hends := ends_of_nameRun hrun
  have hword : PhpImports.separator :: (first.text ++ segments rest) = segments (first :: rest) :=
    rfl
  have hlabel : TokenKind.nameFullyQualified ∉ labelKinds := by decide
  exact {
    label := notMem_labelKinds_iff hlabel (Or.inr (not_label_of_mem List.mem_cons_self))
    qualified := by simp
    fullyQualified := fun _ => ⟨first :: rest, hword, List.cons_ne_nil _ _⟩
    dollarName := by simp
    separator := by simp
    ends := fun _ _ => hends.1
    unsegmented := fun _ => hends.2
    reserved := fun h => absurd h hlabel
    tabled := fun h => absurd (List.mem_cons_of_mem _ h) hlabel }

theorem isWord_dollarName (hstarts : n.startsLabel = true)
    (hchars : ∀ c ∈ n, isLabelChar c = true) (hends : x.head?.any isLabelChar = false) :
    IsWord .variable afterAccess ('$' :: n) x := by
  obtain ⟨l, rfl⟩ := exists_label hstarts hchars
  have hlabel : TokenKind.variable ∉ labelKinds := by decide
  have hpath : TokenKind.variable ∉ labelKinds ++ pathKinds := by decide
  exact {
    label := notMem_labelKinds_iff hlabel (Or.inr (label_of_startsLabel_false rfl))
    qualified := by simp
    fullyQualified := by simp
    dollarName := fun _ => ⟨l, rfl⟩
    separator := by simp
    ends := fun _ _ => hends
    unsegmented := fun h => absurd h hpath
    reserved := fun h => absurd h hlabel
    tabled := fun h => absurd (List.mem_cons_of_mem _ h) hlabel }

theorem isWord_separator (hends : x.startsLabel = false) :
    IsWord .nsSeparator afterAccess [PhpImports.separator] x := by
  have hlabel : TokenKind.nsSeparator ∉ labelKinds := by decide
  have hpath : TokenKind.nsSeparator ∉ labelKinds ++ pathKinds := by decide
  exact {
    label := notMem_labelKinds_iff hlabel (Or.inr (label_of_startsLabel_false rfl))
    qualified := by simp
    fullyQualified := by simp
    dollarName := by simp
    separator := fun _ => ⟨rfl, hends⟩
    ends := fun _ h => absurd rfl h
    unsegmented := fun h => absurd h hpath
    reserved := fun h => absurd h hlabel
    tabled := fun h => absurd (List.mem_cons_of_mem _ h) hlabel }

/-- Whatever starts a label in code is a name. -/
theorem Stands.startsLabel_text {l : Lexeme} (h : Stands afterAccess l x)
    (hkind : l.kind ∉ nameKinds) : l.text.startsLabel = false := by
  obtain ⟨c, r, hsplit, hread⟩ := h.ofCode
  have hne := (ofCode_splits afterAccess c r).2
  rw [hread] at hne
  rw [← Text.startsLabel_append hne (t := x), hsplit, Bool.eq_false_iff]
  intro hc
  have hname : Lexeme.ofCode afterAccess c r = Lexeme.name afterAccess (c :: r) := by
    rw [Lexeme.ofCode, Lead.of_isLabelStart hc]
  rw [hread] at hname
  have hmem : (Lexeme.name afterAccess (c :: r)).1.kind ∈ nameKinds := nameKind_mem _ _
  rw [← hname] at hmem
  exact hkind hmem

/-- In code, a lexeme is a word as its kind says. -/
theorem Stands.isWord {l : Lexeme} (h : Stands afterAccess l x) :
    IsWord l.kind afterAccess l.text x := by
  have hnames : ∀ kind ∈ nameKinds, kind ∈ wordKinds := by decide
  have hother : ∀ kind ∉ wordKinds, l.kind = kind → IsWord l.kind afterAccess l.text x := by
    rintro kind hkind rfl
    exact .of_other hkind (Or.inr (h.startsLabel_text fun hname => hkind (hnames _ hname)))
  cases h with
  | name hstarts hrun =>
    obtain ⟨first, rest, rfl⟩ := exists_first hstarts hrun
    by_cases hrest : rest = []
    · subst hrest
      have hword : first.text ++ segments [] = first.text := List.append_nil _
      rw [hword] at hrun ⊢
      exact isWord_label first hrun
    · exact isWord_path first hrest hrun
  | fullyQualified hstarts hrun => exact isWord_fullyQualified hstarts hrun
  | dollarName hstarts hlabel hends => exact isWord_dollarName hstarts hlabel hends
  | separator hends => exact isWord_separator hends
  | @block body _ _ | @openBlock body _ =>
    rcases blockKind_cases body with hkind | hkind
    · exact hother .comment (by decide) hkind
    · exact hother .docComment (by decide) hkind
  | mark hlead =>
    have hmarks : ∀ kind ∈ markKinds, kind ∉ wordKinds := by decide
    exact hother _ (hmarks _ (mem_markKinds hlead)) rfl
  | longMark hmem =>
    have hmarks : ∀ e ∈ longMarks, e.2 ∉ wordKinds := by decide
    exact hother _ (hmarks _ hmem) rfl
  | heredoc hreads => exact hother .heredoc (by decide) (heredoc?_kind hreads)
  | blanks _ _ _ => exact hother .whitespace (by decide) rfl
  | line _ _ _ => exact hother .comment (by decide) rfl
  | closeTag _ => exact hother .closeTag (by decide) rfl
  | operator _ => exact hother .punct (by decide) rfl
  | string _ _ | openString _ _ => exact hother .stringLiteral (by decide) rfl
  | number _ _ => exact hother .number (by decide) rfl
  | stray _ => exact hother .unknown (by decide) rfl

/-- Outside code there are no words. -/
theorem StandsOutside.isWord {shortTags : Bool} {l : Lexeme} (h : StandsOutside shortTags l x) :
    IsWord l.kind afterAccess l.text x := by
  have hkinds : ∀ kind ∈ [TokenKind.inlineHtml, .openTag, .openTagWithEcho], kind ∉ wordKinds := by
    decide
  cases h with
  | text => exact .of_other (hkinds .inlineHtml (by simp)) (Or.inl rfl)
  | echoTag => exact .of_other (hkinds .openTagWithEcho (by simp)) (Or.inr rfl)
  | _ => exact .of_other (hkinds .openTag (by simp)) (Or.inr rfl)

/-- Past lexemes, code is behind a member access if the last of them that is no trivia is one. -/
theorem afterAccess_of_foldl {A : List Lexeme}
    (h : A.foldl (fun m l => m.after l.kind) Mode.html = .code afterAccess) :
    afterAccess =
      ((A.map (·.kind)).filter fun k => !k.isTrivia).getLast?.any (·.isMemberAccess) := by
  induction A using List.reverseRecOn with
  | nil => cases h
  | append_singleton A l ih =>
    rw [List.foldl_append, List.foldl_cons, List.foldl_nil, Mode.after] at h
    rw [List.map_append, List.filter_append, List.map_cons, List.map_nil]
    split at h
    · cases h
    · split at h
      · next htrivia => simpa [htrivia] using ih h
      · next htrivia =>
        cases h
        simp [htrivia]

end Lexeme

/-- The kind of the last of these tokens that is no trivia. -/
def Token.lastKind? (ts : List Token) : Option TokenKind :=
  ((ts.map (·.kind)).filter fun k => !k.isTrivia).getLast?

variable {shortTags : Bool} {t : Text} {i : Nat} {k : Token}

open Lexeme

theorem isWord_of_token (ht : t.size < UInt32.size)
    (hk : (t.lex shortTags).tokens[i]? = some k) :
    IsWord k.kind ((Token.lastKind? ((t.lex shortTags).tokens.take i)).any (·.isMemberAccess))
      (k.span.text t) (t.slice k.span.stop.toNat t.size) := by
  obtain ⟨A, l, B, hsplit, rfl, rfl, -⟩ := token_eq hk
  have htexts := texts_lexemes shortTags t
  rw [hsplit, texts_append, texts_cons] at htexts
  have hword : (Span.ofNat (texts A).size ((texts A).size + Text.size l.text)).text t =
      l.text := by
    rw [← htexts] at ht ⊢
    exact Span.ofNat_text ht
  have hbehind : t.slice ((texts A).size + Text.size l.text).toUInt32.toNat t.size = texts B := by
    have hslice := Text.slice_append (texts A ++ l.text) (texts B) []
    rw [List.append_nil, List.append_assoc, htexts] at hslice
    have hsize : t.size = (texts A ++ l.text).size + (texts B).size := by
      rw [← Text.size_append, List.append_assoc, htexts]
    have hstop : ((texts A).size + Text.size l.text).toUInt32.toNat = (texts A ++ l.text).size := by
      rw [Nat.toUInt32, UInt32.toNat_ofNat', Text.size_append, Nat.mod_eq_of_lt]
      rw [Text.size_append] at hsize
      simp only [UInt32.size] at ht
      omega
    rw [hstop, hsize, hslice]
  have hbefore : Token.lastKind? ((t.lex shortTags).tokens.take A.length) =
      ((A.map (·.kind)).filter fun k => !k.isTrivia).getLast? := by
    rw [Token.lastKind?, List.map_take, kinds_lex, hsplit, List.map_append,
      List.take_left' (List.length_map _)]
  have hrow := inRow_lexemes shortTags t
  rw [hsplit] at hrow
  rw [hword, hbefore]
  simp only [Span.ofNat, hbehind]
  cases hrow.behind with
  | cons hfirst _ =>
    cases hmode : A.foldl (fun m l => m.after l.kind) Mode.html with
    | html =>
      rw [hmode] at hfirst
      exact StandsOutside.isWord hfirst
    | code afterAccess =>
      rw [hmode] at hfirst
      rw [← afterAccess_of_foldl hmode]
      exact Stands.isWord hfirst

/-- A reserved word behind a member access and a comment is an identifier. -/
theorem isWord_of_token_member :
    let t : Text := "<?php é->/**/Use;".toList
    let k : Token := ⟨.ident, ⟨14, 17⟩⟩
    t.size < UInt32.size ∧ (t.lex false).tokens[4]? = some k ∧
      IsWord .ident true "Use".toList ";".toList := by
  intro t k
  have hsize : t.size < UInt32.size := by decide
  obtain ⟨hk, hbefore⟩ : (t.lex false).tokens[4]? = some k ∧
      (Token.lastKind? ((t.lex false).tokens.take 4)).any (·.isMemberAccess) = true := by
    decide +kernel
  have hword := isWord_of_token hsize hk
  have htext : k.span.text t = "Use".toList := by rfl
  have hbehind : t.slice k.span.stop.toNat t.size = ";".toList := by rfl
  rw [htext, hbehind, hbefore] at hword
  exact ⟨hsize, hk, hword⟩

end PhpImports
