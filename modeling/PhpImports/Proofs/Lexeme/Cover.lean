import PhpImports.Proofs.Lexeme.LookAhead

/-!
# Layout, comments and strings hide what is in them

Blanks, closed block comments and closed strings show their first character and nothing else. So in
a row one of them may take the place of another of its class, and all other lexemes stay what they
are (`InRow.swap`). A line comment in front of blanks needs its line ending, and where three
less-than signs stand in a row a heredoc could read on.
-/

namespace PhpImports

def TokenKind.isComment : TokenKind → Bool
  | .comment | .docComment => true
  | _ => false

/-- The kinds are the same, but for whether a comment documents the code. -/
def TokenKind.Alike (k k' : TokenKind) : Prop :=
  k' = k ∨ k.isComment = true ∧ k'.isComment = true

theorem TokenKind.isComment_iff {k : TokenKind} :
    k.isComment = true ↔ k = .comment ∨ k = .docComment := by
  constructor
  · intro h
    cases k with
    | comment => exact Or.inl rfl
    | docComment => exact Or.inr rfl
    | _ => cases h
  · rintro (rfl | rfl) <;> rfl

/-- What does not tell the two kinds of comments apart does not tell kinds that are alike apart. -/
theorem TokenKind.Alike.map_eq {β : Type} {k k' : TokenKind} {f : TokenKind → β} (h : k.Alike k')
    (hf : f .docComment = f .comment) : f k' = f k := by
  have hcomment : ∀ k : TokenKind, k.isComment = true → f k = f .comment := by
    intro k hk
    rcases isComment_iff.1 hk with rfl | rfl
    · rfl
    · exact hf
  rcases h with rfl | ⟨hk, hk'⟩
  · rfl
  · rw [hcomment k hk, hcomment k' hk']

namespace Lexeme

open Text (LookAlike)

/-- Blanks, a closed block comment or a closed string. -/
inductive Covers : Lexeme → Prop
  | blanks {w : Text} (any : w ≠ []) (blank : ∀ c ∈ w, isBlank c = true) :
      Covers { kind := .whitespace, text := w }
  | block {body : Text} (closed : ¬ ['*', '/'] <:+: body) :
      Covers { kind := blockKind body, text := ['/', '*'] ++ body ++ ['*', '/'] }
  | string {q : Char} {body : Text} (quote : Enclosure.IsQuote q)
      (closed : Enclosure.close [.quote q] body = (body, some [])) :
      Covers { kind := .stringLiteral, text := q :: body }

/-- What the first character of such a lexeme announces. -/
def coverLead : TokenKind → Lead
  | .whitespace => .blank
  | .comment | .docComment => .slash
  | _ => .quote

variable {afterAccess : Bool} {l l' : Lexeme} {x x' : Text}

theorem isComment_blockKind (body : Text) : (blockKind body).isComment = true :=
  TokenKind.isComment_iff.2 (blockKind_cases body)

theorem blockKind_ne_whitespace (body : Text) : blockKind body ≠ .whitespace := by
  intro hspace
  have hcomment := isComment_blockKind body
  rw [hspace] at hcomment
  cases hcomment

theorem Covers.head (h : Covers l) :
    ∃ c r, l.text = c :: r ∧ c ∈ covers ∧ Lead.of c = coverLead l.kind := by
  cases h with
  | @blanks w hany hblank =>
    obtain ⟨c, w, rfl⟩ := List.exists_cons_of_ne_nil hany
    have hc := hblank c List.mem_cons_self
    refine ⟨c, w, rfl, ?_, by rw [Lead.of, if_pos hc]; rfl⟩
    simp only [isBlank, isIndent, Bool.or_eq_true, decide_eq_true_iff] at hc
    rcases hc with ((rfl | rfl) | rfl) | rfl <;> decide
  | @block body hclosed =>
    refine ⟨'/', '*' :: (body ++ ['*', '/']), by simp, by decide, ?_⟩
    rcases blockKind_cases body with hkind | hkind <;> rw [hkind] <;> rfl
  | @string q body hquote hclosed =>
    refine ⟨q, body, rfl, ?_, Enclosure.isQuote_iff.1 hquote⟩
    rcases hquote with rfl | rfl | rfl <;> decide

theorem Covers.lookAlike (h : Covers l) (h' : Covers l') (halike : l.kind.Alike l'.kind)
    (x x' : Text) : LookAlike (l.text ++ x) (l'.text ++ x') := by
  obtain ⟨c, r, hl, hc, hlead⟩ := h.head
  obtain ⟨d, r', hl', hd, hlead'⟩ := h'.head
  rw [hl, hl']
  exact .cover hc hd (by rw [hlead, hlead', halike.map_eq (f := coverLead) rfl])

/-- Such a lexeme stands in front of every text, but that more blanks would be part of blanks. -/
theorem Covers.stands (h : Covers l)
    (hblank : l.kind = .whitespace → x.head?.any isBlank = false) : Stands afterAccess l x := by
  cases h with
  | blanks hany hw => exact .blanks hany hw (hblank rfl)
  | block hclosed => exact .block hclosed
  | string hquote hclosed => exact .string hquote hclosed

/-- The kinds of lexemes that cover. -/
def coverKinds : List TokenKind :=
  [.whitespace, .comment, .docComment, .stringLiteral]

theorem not_mem_coverKinds : ∀ kind ∈ tableKinds, kind ∉ coverKinds := by decide

theorem not_startsWith_of_opensLine {a : Text} (h : opensLine a = true) :
    a.startsWith "/*".toList = false := by
  rcases opensLine_cases h with ⟨r, rfl⟩ | ⟨r, rfl, -⟩ <;> simp

/-- Blanks, and the closed ones among block comments and strings, are lexemes that cover. -/
theorem Stands.covers (h : Stands afterAccess l x) (hkind : l.kind ∈ coverKinds)
    (hfault : l.kind = .whitespace ∨ l.fault = none)
    (hblock : l.kind.isComment = true → l.text.startsWith "/*".toList = true) :
    Covers l ∧ (l.kind = .whitespace → x.head?.any isBlank = false) := by
  cases h with
  | blanks hany hblank hends => exact ⟨.blanks hany hblank, fun _ => hends⟩
  | line hopens _ _ =>
    have hstart := hblock rfl
    rw [not_startsWith_of_opensLine hopens] at hstart
    cases hstart
  | @block body x hclosed =>
    exact ⟨.block hclosed, fun hspace => absurd hspace (blockKind_ne_whitespace body)⟩
  | string hquote hclosed => exact ⟨.string hquote hclosed, fun hspace => by cases hspace⟩
  | @openBlock body _ =>
    rcases hfault with hspace | hnone
    · exact absurd hspace (blockKind_ne_whitespace body)
    · cases hnone
  | openString _ _ => rcases hfault with hspace | hnone <;> contradiction
  | mark hlead => exact absurd hkind (not_mem_coverKinds _ (mem_tableKinds_of_mark hlead))
  | longMark hmem => exact absurd hkind (not_mem_coverKinds _ (mem_tableKinds_of_longMark hmem))
  | name _ _ => exact absurd hkind (not_mem_coverKinds _ (mem_tableKinds_of_name _ _))
  | heredoc hreads =>
    rw [heredoc?_kind hreads] at hkind
    exact absurd hkind (by decide)
  | closeTag | operator | dollarName | separator | fullyQualified | number | stray =>
    simp [coverKinds] at hkind

theorem Covers.sound (h : Covers l) : l.kind ∈ coverKinds ∧ l.fault = none ∧
    (l.kind.isComment = true → l.text.startsWith "/*".toList = true) := by
  cases h with
  | blanks _ _ => exact ⟨by simp [coverKinds], rfl, fun hcomment => by cases hcomment⟩
  | @block body _ =>
    refine ⟨?_, rfl, fun _ => Text.startsWith_iff.2 ⟨body ++ ['*', '/'], rfl⟩⟩
    rcases blockKind_cases body with hkind | hkind <;> simp [hkind, coverKinds]
  | string _ _ => exact ⟨by simp [coverKinds], rfl, fun hcomment => by cases hcomment⟩

theorem Stands.ends_of_covers (h : Stands afterAccess l x) (hl : Covers l)
    (hkind : l.kind = .whitespace) : x.head?.any isBlank = false :=
  (h.covers hl.sound.1 (Or.inr hl.sound.2.1) hl.sound.2.2).2 hkind

/-- Outside code nothing covers. -/
theorem not_standsOutside {shortTags : Bool} (hkind : l.kind ∈ coverKinds) :
    ¬ StandsOutside shortTags l x := by
  intro hstands
  cases hstands <;> simp [coverKinds] at hkind

theorem whitespace_iff_of_alike {k k' : TokenKind} (h : k.Alike k') :
    k' = .whitespace ↔ k = .whitespace :=
  decide_eq_decide.1 (h.map_eq (f := fun k => decide (k = .whitespace)) rfl)

/-- Only a line ending ends a line comment in front of a lexeme that covers. -/
theorem Covers.kind_of_endsLineComment (h : Covers l)
    (hends : endsLineComment (l.text ++ x) = true) : l.kind = .whitespace := by
  cases h with
  | blanks _ _ => rfl
  | block _ => simp [endsLineComment] at hends
  | string hquote _ => rcases hquote with rfl | rfl | rfl <;> simp [endsLineComment] at hends

variable {shortTags : Bool} {m : Mode} {A B : List Lexeme}

theorem InRow.covers (h : InRow shortTags m (A ++ l :: B)) (hkind : l.kind ∈ coverKinds)
    (hfault : l.kind = .whitespace ∨ l.fault = none)
    (hblock : l.kind.isComment = true → l.text.startsWith "/*".toList = true) : Covers l := by
  obtain ⟨m', hrow⟩ := h.of_append
  cases hrow with
  | cons hfirst _ =>
    cases m' with
    | html => exact absurd hfirst (not_standsOutside hkind)
    | code afterAccess => exact (Stands.covers hfirst hkind hfault hblock).1

/-- One lexeme that covers in place of another: what stands in front of them stays. -/
theorem stands_swap {a : Lexeme} (h : m.Stands shortTags a (texts (A ++ l :: B)))
    (hrest : InRow shortTags (m.after a.kind) (A ++ l :: B)) (hl : Covers l) (hl' : Covers l')
    (halike : l.kind.Alike l'.kind) (hcr : '\r' ∉ a.text ++ texts (A ++ l :: B))
    (hless : Text.startsWith (a.text ++ texts (A ++ l :: B)) "<<<".toList = false)
    (hline : A = [] → a.kind = .comment → opensLine a.text = true → l'.kind = .whitespace →
      l'.text.head? = some '\n') :
    m.Stands shortTags a (texts (A ++ l' :: B)) := by
  have hxy : LookAlike (texts (A ++ l :: B)) (texts (A ++ l' :: B)) := by
    rw [texts_append, texts_append, texts_cons, texts_cons]
    exact (hl.lookAlike hl' halike _ _).append_left _
  cases m with
  | html => exact StandsOutside.lookAlike h hxy fun hmem => hcr (List.mem_append_left _ hmem)
  | code afterAccess =>
    have hheredoc : ∀ r, heredoc? r ≠ some (a, texts (A ++ l :: B)) := by
      intro r hreads
      rw [(heredoc?_splits hreads).1, Text.startsWith_iff.2 ⟨_, rfl⟩] at hless
      cases hless
    have hoperator : a.text = ['<'] → standsAlone '<' (texts (A ++ l' :: B)) = true := by
      intro ha
      rw [ha] at hless
      have hplain : Text.startsWith (texts (A ++ l :: B)) "<<".toList = false := hless
      rw [hxy.startsWith (by decide)] at hplain
      simp only [standsAlone, show Lead.of '<' = .less from rfl, hplain]
      rfl
    cases A with
    | nil =>
      refine Stands.lookAlike h hxy ?_ ?_ (fun ha _ => hoperator ha)
        fun r hreads => absurd hreads (hheredoc r)
      · intro hcomment hopens hends
        have hspace := hl.kind_of_endsLineComment hends
        have hhead := hline rfl hcomment hopens ((whitespace_iff_of_alike halike).2 hspace)
        obtain ⟨r, hr⟩ := List.head?_eq_some_iff.1 hhead
        rw [List.nil_append, texts_cons, hr]
        rfl
      · intro hkind
        rw [hkind] at hrest
        cases hrest with
        | cons hfirst _ => exact absurd hfirst (not_standsOutside hl.sound.1)
    | cons a' A =>
      obtain ⟨c, r, r', hx, hy⟩ : ∃ c r r', texts (a' :: A ++ l :: B) = c :: r ∧
          texts (a' :: A ++ l' :: B) = c :: r' := by
        cases hrest with
        | cons hfirst _ =>
          obtain ⟨c, r, hcr⟩ := List.exists_cons_of_ne_nil hfirst.ne_nil
          simp only [List.cons_append, texts_cons, hcr]
          exact ⟨c, _, _, rfl, rfl⟩
      have hc : c ≠ '\r' := by
        rintro rfl
        rw [hx] at hcr
        exact hcr (List.mem_append_right _ List.mem_cons_self)
      rw [hx, hy] at hxy
      rw [hx] at h hheredoc
      rw [hy] at hoperator ⊢
      refine Stands.lookAlike h hxy ?_ ?_ (fun ha _ => hoperator ha)
        fun r hreads => absurd hreads (hheredoc r)
      · intro _ _ hends
        rwa [← endsLineComment_lookAlike hxy rfl]
      · intro _ hlength
        rwa [closeTagLength_cons hc] at hlength ⊢

/-- In a row, one lexeme that covers may take the place of another of its class. -/
theorem InRow.swap (h : InRow shortTags m (A ++ l :: B)) (hl : Covers l) (hl' : Covers l')
    (halike : l.kind.Alike l'.kind) (hcr : '\r' ∉ texts (A ++ l :: B))
    (hless : ¬ "<<<".toList <:+: texts (A ++ l :: B))
    (hline : ∀ a ∈ A.getLast?, a.kind = .comment → opensLine a.text = true →
      l'.kind = .whitespace → l'.text.head? = some '\n') :
    InRow shortTags m (A ++ l' :: B) := by
  induction A generalizing m with
  | nil =>
    cases h with
    | cons hfirst hrest =>
      rw [← halike.map_eq (f := m.after) rfl] at hrest
      refine .cons ?_ hrest
      cases m with
      | html => exact absurd hfirst (not_standsOutside hl.sound.1)
      | code afterAccess =>
        refine hl'.stands fun hkind => ?_
        exact Stands.ends_of_covers hfirst hl ((whitespace_iff_of_alike halike).1 hkind)
  | cons a A ih =>
    cases h with
    | cons hfirst hrest =>
      rw [List.cons_append, texts_cons] at hcr hless
      have hstart : Text.startsWith (a.text ++ texts (A ++ l :: B)) "<<<".toList = false := by
        rw [Bool.eq_false_iff]
        intro hstart
        obtain ⟨r, hr⟩ := Text.startsWith_iff.1 hstart
        exact hless ⟨[], r, hr.symm⟩
      refine .cons (stands_swap hfirst hrest hl hl' halike hcr hstart ?_) (ih hrest ?_ ?_ ?_)
      · rintro rfl
        exact hline a rfl
      · exact fun hmem => hcr (List.mem_append_right _ hmem)
      · exact fun hmark => hless (hmark.trans (List.suffix_append _ _).isInfix)
      · intro b hb
        refine hline b ?_
        cases A with
        | nil => cases hb
        | cons a' A => rwa [List.getLast?_cons_cons]

end Lexeme
end PhpImports
