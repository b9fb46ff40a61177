import PhpImports.Lexing
import PhpImports.Proofs.Cursor.Code

/-!
# Lexing at byte offsets

A round reads from an offset on: in code one token, outside code an open tag and the text before it,
if there is any. Rounds follow each other until the offset is the size of the text, and a round that
yields nothing or does not move is a fault. A text of fewer than 2 ^ 32 bytes meets no fault at all,
and its rounds yield the lexemes of `Text.lex` (`lex_eq`). So the tokens of such a text tile it
(`tokens_tile`).
-/

namespace PhpImports.Cursor

/-- A token with the offset where it starts. -/
structure Cut where
  start : Nat
  ending : Ending
deriving DecidableEq, Repr

namespace Cut

def span (c : Cut) : Span := .ofNat c.start c.ending.stop

def token (c : Cut) : Token := ⟨c.ending.kind, c.span⟩

def diagnostic? (c : Cut) : Option Diagnostic :=
  c.ending.fault.map (·.report c.span)

end Cut

/-- Where reading stands: at an offset, in code or not, after a token that is no trivia. -/
structure State where
  offset : Nat := 0
  inCode : Bool := false
  last : Option TokenKind := none
deriving DecidableEq, Repr

namespace State

def push (st : State) (c : Cut) : State where
  offset := c.ending.stop
  inCode := st.inCode
  last := if c.ending.kind.isTrivia then st.last else some c.ending.kind

/-- The state after the tokens of a round. -/
def after (st : State) (cuts : List Cut) (inCode : Bool) : State :=
  { cuts.foldl push st with inCode }

def afterAccess (st : State) : Bool :=
  st.last.any (·.isMemberAccess)

def mode (st : State) : Mode :=
  if st.inCode then .code st.afterAccess else .html

end State

/-- The tokens of a round that starts outside code, and whether code comes next. -/
def htmlRound (shortTags : Bool) (s : Text) (i : Nat) : Result (List Cut × Bool) := do
  match ← findOpenTag? shortTags s i with
  | none => return ([⟨i, .inlineHtml, s.size, none⟩], false)
  | some tag =>
    let opened : Cut := ⟨tag.start, tag.kind, tag.start + tag.length, none⟩
    return (if i < tag.start then [⟨i, .inlineHtml, tag.start, none⟩, opened] else [opened], true)

/-- The token of a round in code, and whether code comes next. -/
def codeRound (afterAccess : Bool) (s : Text) (i : Nat) : Result (List Cut × Bool) := do
  let e ← codeToken afterAccess s i
  return ([⟨i, e⟩], e.kind ≠ .closeTag)

def round (shortTags : Bool) (s : Text) (st : State) : Result (List Cut × Bool) :=
  if st.inCode then codeRound st.afterAccess s st.offset else htmlRound shortTags s st.offset

/-- The tokens of all rounds from a state on. -/
def run (shortTags : Bool) (s : Text) (st : State) : Result (List Cut) :=
  if _ : s.size ≤ st.offset then .ok []
  else do
    let (cuts, inCode) ← round shortTags s st
    if _ : cuts ≠ [] ∧ st.offset < (st.after cuts inCode).offset then
      return cuts ++ (← run shortTags s (st.after cuts inCode))
    throw .idle
termination_by s.size - st.offset

/-- The tokens and the diagnostics of a text. -/
def lex (shortTags : Bool) (s : Text) : Result (List Token × List Diagnostic) := do
  let cuts ← run shortTags s {}
  return (cuts.map (·.token), cuts.filterMap (·.diagnostic?))

/-- The lexemes as tokens that start one after another, the first one at `start`. -/
def cutAll (start : Nat) : List Lexeme → List Cut
  | [] => []
  | l :: ls => ⟨start, .of start l⟩ :: cutAll (start + l.text.size) ls

theorem cutAll_append (start : Nat) (ls ls' : List Lexeme) : cutAll start (ls ++ ls') =
    cutAll start ls ++ cutAll (start + Text.size (ls.map (·.text)).flatten) ls' := by
  induction ls generalizing start with
  | nil => rfl
  | cons l ls ih =>
    simp only [List.cons_append, cutAll, ih, List.map_cons, List.flatten_cons, Text.size_append,
      Nat.add_assoc]

theorem offset_after (st : State) (ls : List Lexeme) (inCode : Bool) :
    (st.after (cutAll st.offset ls) inCode).offset =
      st.offset + Text.size (ls.map (·.text)).flatten := by
  have hfold : ∀ (ls : List Lexeme) (st : State),
      ((cutAll st.offset ls).foldl State.push st).offset =
        st.offset + Text.size (ls.map (·.text)).flatten := by
    intro ls
    induction ls with
    | nil =>
      intro st
      rfl
    | cons l ls ih =>
      intro st
      have hrest := ih (st.push ⟨st.offset, .of st.offset l⟩)
      simp only [cutAll, List.foldl_cons, List.map_cons, List.flatten_cons, Text.size_append,
        ← Nat.add_assoc]
      exact hrest
  exact hfold ls st

/-- Read in mode `m`, the text `r` starts with the lexemes `ls`, and `t` is left in mode `m'`. -/
structure Yields (shortTags : Bool) (m : Mode) (r : Text) (ls : List Lexeme) (m' : Mode)
    (t : Text) : Prop where
  splits : (ls.map (·.text)).flatten ++ t = r
  shorter : t.length < r.length
  readAll : Lexeme.readAll shortTags m r = ls ++ Lexeme.readAll shortTags m' t

theorem Yields.one (shortTags : Bool) (m : Mode) (c : Char) (r : Text) :
    Yields shortTags m (c :: r) [(m.lexeme shortTags c r).1]
      (m.after (m.lexeme shortTags c r).1.kind) (m.lexeme shortTags c r).2 where
  splits := by
    rw [List.map_singleton, List.flatten_singleton]
    exact (m.lexeme_splits shortTags c r).1
  shorter := (m.lexeme_splits shortTags c r).length_lt
  readAll := by
    rw [Lexeme.readAll]
    rfl

theorem Yields.append {shortTags : Bool} {m m' m'' : Mode} {r t u : Text} {ls ls' : List Lexeme}
    (h : Yields shortTags m r ls m' t) (h' : Yields shortTags m' t ls' m'' u) :
    Yields shortTags m r (ls ++ ls') m'' u where
  splits := by
    rw [List.map_append, List.flatten_append, List.append_assoc, h'.splits, h.splits]
  shorter := Nat.lt_trans h'.shorter h.shorter
  readAll := by rw [h.readAll, h'.readAll, List.append_assoc]

/-- In a round as many tokens are read as lexemes, and the mode agrees with the state after it. -/
structure RoundAgrees (shortTags : Bool) (s : Text) (st : State) (r : Text) (ls : List Lexeme)
    (inCode : Bool) (t : Text) : Prop where
  round_eq : round shortTags s st = .ok (cutAll st.offset ls, inCode)
  yields : Yields shortTags st.mode r ls (st.after (cutAll st.offset ls) inCode).mode t

variable {shortTags : Bool} {s r : Text} {st : State}

/-- In code no lexeme is text outside code. -/
theorem ofCode_kind_ne (afterAccess : Bool) (c : Char) (r : Text) :
    (Lexeme.ofCode afterAccess c r).1.kind ≠ .inlineHtml := by
  have hname : ∀ kind ∈ Lexeme.nameKinds, kind ≠ .inlineHtml := by decide
  have hplain : ∀ kind ∈ Lexeme.plainKinds, kind ≠ .inlineHtml := by decide
  rcases Lexeme.ofCode_cases afterAccess c r with ⟨-, heq⟩ | ⟨-, heq⟩ | hkind
  · rw [heq]
    exact hname _ (Lexeme.nameKind_mem afterAccess _)
  · rw [heq]
    split
    · intro h
      cases h
    · intro h
      cases h
  · exact hplain _ (List.contains_iff_mem.1 hkind)

theorem codeRound_agrees {c : Char} (h : At s st.offset (c :: r)) (hs : s.size < UInt32.size)
    (hcode : st.inCode = true) :
    ∃ ls inCode t, RoundAgrees shortTags s st (c :: r) ls inCode t := by
  have hmode : st.mode = .code st.afterAccess := by rw [State.mode, hcode, if_pos rfl]
  have hone := Yields.one shortTags st.mode c r
  have hkind := ofCode_kind_ne st.afterAccess c r
  rw [hmode] at hone
  simp only [Mode.lexeme] at hone
  generalize hx : Lexeme.ofCode st.afterAccess c r = x at hone hkind
  refine ⟨[x.1], x.1.kind ≠ .closeTag, x.2, ?_, ?_⟩
  · rw [round, hcode, if_pos rfl, codeRound, h.codeToken hs, hx]
    rfl
  · have hafter : (st.after (cutAll st.offset [x.1]) (x.1.kind ≠ .closeTag)).mode =
        (Mode.code st.afterAccess).after x.1.kind := by
      by_cases hclose : x.1.kind = .closeTag
      · simp [State.after, State.mode, Mode.after, hclose]
      · cases htrivia : x.1.kind.isTrivia with
        | true =>
          simp [State.after, State.mode, State.afterAccess, State.push, cutAll, Ending.of,
            Mode.after, hclose, hkind, htrivia]
        | false =>
          simp [State.after, State.mode, State.afterAccess, State.push, cutAll, Ending.of,
            Mode.after, hclose, hkind, htrivia]
    rw [hafter, hmode]
    exact hone

theorem At.size_take_openTag {kind : TokenKind} {n : Nat} {i : Nat} (h : At s i r)
    (htag : Lexeme.openTag? shortTags r = some (kind, n)) : Text.size (r.take n) = n := by
  have hstop := (h.openTag? htag).size
  have hsplit : At s i (r.take n ++ r.drop n) := by rwa [List.take_append_drop]
  have hcut := hsplit.advance.size
  omega

/-- A round that ends with an open tag ends in code, and behind no member access. -/
theorem mode_after_openTag (ls : List Lexeme) {l : Lexeme}
    (hl : l.kind = .openTag ∨ l.kind = .openTagWithEcho) :
    (st.after (cutAll st.offset (ls ++ [l])) true).mode = Mode.html.after l.kind := by
  rw [cutAll_append]
  simp only [State.after, State.mode, State.afterAccess, List.foldl_append, cutAll, List.foldl_cons,
    List.foldl_nil, State.push, Ending.of, if_true]
  rcases hl with hl | hl
  · rw [hl]
    rfl
  · rw [hl]
    rfl

theorem Yields.openTag {kind : TokenKind} {n : Nat}
    (htag : Lexeme.openTag? shortTags r = some (kind, n)) :
    Yields shortTags .html r [(Lexeme.cut kind n r).1] (Mode.html.after kind)
      (Lexeme.cut kind n r).2 := by
  cases r with
  | nil => cases htag
  | cons c r =>
    have hone := Yields.one shortTags .html c r
    simp only [Mode.lexeme, Lexeme.ofHtml, htag] at hone
    exact hone

theorem State.mode_of_html (hhtml : st.inCode = false) : st.mode = .html := by
  rw [State.mode, hhtml]
  rfl

theorem round_of_html (hhtml : st.inCode = false) :
    round shortTags s st = htmlRound shortTags s st.offset := by
  rw [round, hhtml]
  rfl

/-- Outside code, at an open tag. -/
theorem htmlRound_agrees_of_openTag {kind : TokenKind} {n : Nat} (h : At s st.offset r)
    (hhtml : st.inCode = false) (htag : Lexeme.openTag? shortTags r = some (kind, n)) :
    RoundAgrees shortTags s st r [(Lexeme.cut kind n r).1] true (Lexeme.cut kind n r).2 := by
  have hsize := h.size_take_openTag htag
  have hafter := @mode_after_openTag st [] (Lexeme.cut kind n r).1 (Lexeme.openTag?_kind htag)
  rw [List.nil_append] at hafter
  constructor
  · rw [round_of_html hhtml, htmlRound, h.findOpenTag?, foundAt_of_some st.offset htag]
    simp only [bind, Except.bind, Nat.lt_irrefl, if_false, cutAll, Lexeme.cut, Ending.of, hsize]
    rfl
  · rw [hafter, State.mode_of_html hhtml]
    exact Yields.openTag htag

/-- Outside code, in front of some text: it is cut off, and so is the open tag that ends it. -/
theorem htmlRound_agrees_of_text {c : Char} (h : At s st.offset (c :: r))
    (hhtml : st.inCode = false) (htag : Lexeme.openTag? shortTags (c :: r) = none) :
    ∃ ls inCode t, RoundAgrees shortTags s st (c :: r) ls inCode t := by
  have hbefore := @Text.breakAt_ne_nil (fun t => (Lexeme.openTag? shortTags t).isSome) c r
    (by rw [htag]; rfl)
  have happend := Text.breakAt_append (fun t => (Lexeme.openTag? shortTags t).isSome) (c :: r)
  have hrest := Text.breakAt_stop (fun t => (Lexeme.openTag? shortTags t).isSome) (c :: r)
  have hone := Yields.one shortTags .html c r
  have hfind : findOpenTag? shortTags s st.offset = _ := h.findOpenTag?
  simp only [Mode.lexeme, Lexeme.ofHtml, htag, Lexeme.upTo] at hone
  rw [foundAt] at hfind
  generalize Text.breakAt (fun t => (Lexeme.openTag? shortTags t).isSome) (c :: r) = x
    at hbefore happend hrest hone hfind
  obtain ⟨before, rest⟩ := x
  simp only at hbefore happend hrest hone hfind
  rcases hrest with rfl | hrest
  · refine ⟨[⟨.inlineHtml, before, none⟩], false, [], ?_, ?_⟩
    · have hsize := h.size
      rw [List.append_nil] at happend
      rw [round_of_html hhtml, htmlRound, hfind, hsize, ← happend]
      rfl
    · rw [State.mode_of_html hhtml]
      exact hone
  · obtain ⟨⟨kind, n⟩, hopen⟩ := Option.isSome_iff_exists.1 hrest
    have hbehind : At s (st.offset + before.size) rest := by
      apply At.advance
      rw [happend]
      exact h
    have hsize := hbehind.size_take_openTag hopen
    have hpos := Text.size_pos hbefore
    have hlt : st.offset < st.offset + before.size := by omega
    have hafter := @mode_after_openTag st [⟨.inlineHtml, before, none⟩]
      (Lexeme.cut kind n rest).1 (Lexeme.openTag?_kind hopen)
    rw [List.singleton_append] at hafter
    refine ⟨[⟨.inlineHtml, before, none⟩, (Lexeme.cut kind n rest).1], true,
      (Lexeme.cut kind n rest).2, ?_, ?_⟩
    · rw [round_of_html hhtml, htmlRound, hfind, hopen]
      simp only [Option.map_some, bind, Except.bind, if_pos hlt, cutAll, Lexeme.cut, Ending.of,
        hsize]
      rfl
    · rw [hafter, State.mode_of_html hhtml]
      exact hone.append (Yields.openTag hopen)

theorem htmlRound_agrees {c : Char} (h : At s st.offset (c :: r)) (hhtml : st.inCode = false) :
    ∃ ls inCode t, RoundAgrees shortTags s st (c :: r) ls inCode t := by
  cases htag : Lexeme.openTag? shortTags (c :: r) with
  | some x =>
    obtain ⟨kind, n⟩ := x
    exact ⟨_, _, _, htmlRound_agrees_of_openTag h hhtml htag⟩
  | none => exact htmlRound_agrees_of_text h hhtml htag

theorem run_eq (h : At s st.offset r) (hs : s.size < UInt32.size) :
    run shortTags s st = .ok (cutAll st.offset (Lexeme.readAll shortTags st.mode r)) := by
  induction hn : r.length using Nat.strongRecOn generalizing st r with
  | ind n ih =>
    have hsize := h.size
    rw [run]
    cases r with
    | nil =>
      rw [dif_pos (by simp at hsize; omega), Lexeme.readAll]
      rfl
    | cons c r =>
      have hpos := Char.utf8Size_pos c
      rw [Text.size_cons] at hsize
      obtain ⟨ls, inCode, t, hround, hyields⟩ :
          ∃ ls inCode t, RoundAgrees shortTags s st (c :: r) ls inCode t := by
        cases hcode : st.inCode with
        | true => exact codeRound_agrees h hs hcode
        | false => exact htmlRound_agrees h hcode
      have hoffset := offset_after st ls inCode
      have hnext : At s (st.after (cutAll st.offset ls) inCode).offset t := by
        rw [hoffset]
        apply At.advance
        rw [hyields.splits]
        exact h
      have htaken : (ls.map (·.text)).flatten ≠ [] := by
        intro hnil
        have hsplits := hyields.splits
        have hshorter := hyields.shorter
        rw [hnil, List.nil_append] at hsplits
        rw [hsplits] at hshorter
        exact Nat.lt_irrefl _ hshorter
      have hcuts : cutAll st.offset ls ≠ [] := by
        rintro hnil
        cases ls with
        | nil => exact htaken rfl
        | cons l ls => cases hnil
      have hmoved := Text.size_pos htaken
      have hrest := ih t.length (hn ▸ hyields.shorter) hnext rfl
      rw [dif_neg (by omega), hround]
      simp only [bind, Except.bind]
      rw [dif_pos ⟨hcuts, by omega⟩, hrest, hyields.readAll, cutAll_append, hoffset]
      rfl

theorem map_token_cutAll (start : Nat) (ls : List Lexeme) :
    (cutAll start ls).map (·.token) = (Lexeme.place start ls).map (·.piece.token) := by
  induction ls generalizing start with
  | nil => rfl
  | cons l ls ih =>
    simp only [cutAll, Lexeme.place, List.map_cons, ih]
    rfl

theorem filterMap_diagnostic?_cutAll (start : Nat) (ls : List Lexeme) :
    (cutAll start ls).filterMap (·.diagnostic?) =
      (Lexeme.place start ls).filterMap (·.diagnostic?) := by
  induction ls generalizing start with
  | nil => rfl
  | cons l ls ih =>
    simp only [cutAll, Lexeme.place, List.filterMap_cons, ih]
    rfl

theorem map_text_place (start : Nat) (ls : List Lexeme) :
    (Lexeme.place start ls).map (·.piece.text) = ls.map (·.text) := by
  induction ls generalizing start with
  | nil => rfl
  | cons l ls ih =>
    simp only [Lexeme.place, List.map_cons, ih]
    rfl

/-- Read at byte offsets, a text meets no fault and has the tokens and diagnostics it always has. -/
theorem lex_eq (shortTags : Bool) (s : Text) (hs : s.size < UInt32.size) :
    lex shortTags s = .ok ((s.lex shortTags).tokens, (s.lex shortTags).diagnostics) := by
  have hrun : run shortTags s {} = .ok (cutAll 0 (s.lexemes shortTags)) := run_eq (At.start s) hs
  rw [lex, hrun]
  simp only [bind, Except.bind, map_token_cutAll, filterMap_diagnostic?_cutAll]
  rw [Lexing.tokens, Text.lex, List.map_map]
  rfl

/-- From byte `start` on, the tokens cover the text one after another. None is empty, and none
starts or ends inside a character. -/
structure Tiles (s : Text) (start : Nat) (tokens : List Token) : Prop where
  nonempty : ∀ t ∈ tokens, t.span.start < t.span.stop
  first : ∀ t ∈ tokens.head?, t.span.start.toNat = start
  adjacent : tokens.IsChain fun a b => a.span.stop = b.span.start
  last : (tokens.getLast?.map (·.span.stop.toNat)).getD start = s.size
  boundary : ∀ t ∈ tokens, (∃ r, At s t.span.start.toNat r) ∧ ∃ r, At s t.span.stop.toNat r

theorem Tiles.nil (s : Text) : Tiles s s.size [] := by
  constructor <;> simp

theorem Tiles.cons {s r r' : Text} {t : Token} {ts : List Token} {i j : Nat} (h : Tiles s j ts)
    (hi : t.span.start.toNat = i) (hj : t.span.stop.toNat = j) (hlt : i < j) (hr : At s i r)
    (hr' : At s j r') : Tiles s i (t :: ts) where
  nonempty := by
    intro u hu
    rcases List.mem_cons.1 hu with rfl | hu
    · rw [UInt32.lt_iff_toNat_lt, hi, hj]
      exact hlt
    · exact h.nonempty u hu
  first := by simpa using hi
  adjacent := by
    rw [List.isChain_cons]
    refine ⟨?_, h.adjacent⟩
    intro u hu
    exact UInt32.toNat_inj.1 (hj.trans (h.first u hu).symm)
  last := by
    rw [List.getLast?_cons, Option.map_some, Option.getD_some, ← h.last, ← hj]
    cases ts.getLast? <;> rfl
  boundary := by
    intro u hu
    rcases List.mem_cons.1 hu with rfl | hu
    · exact ⟨⟨r, hi ▸ hr⟩, ⟨r', hj ▸ hr'⟩⟩
    · exact h.boundary u hu

theorem Tiles.isEmpty_span {s : Text} {start : Nat} {tokens : List Token} {t : Token}
    (h : Tiles s start tokens) (ht : t ∈ tokens) : t.span.isEmpty = false := by
  have hlt := UInt32.lt_iff_toNat_lt.1 (h.nonempty t ht)
  rw [Span.isEmpty, Span.length, decide_eq_false_iff_not]
  omega

/-- Lexemes that are not empty tile the text they make up, as long as offsets do not wrap around. -/
theorem tiles_place (before : Text) (ls : List Lexeme) (hls : ∀ l ∈ ls, l.text ≠ [])
    (h : (before ++ (ls.map (·.text)).flatten).size < UInt32.size) :
    Tiles (before ++ (ls.map (·.text)).flatten) before.size
      ((Lexeme.place before.size ls).map (·.piece.token)) := by
  induction ls generalizing before with
  | nil =>
    rw [List.map_nil, List.flatten_nil, List.append_nil]
    exact Tiles.nil before
  | cons l ls ih =>
    have hpos := Text.size_pos (hls l List.mem_cons_self)
    have hsplit : before ++ ((l :: ls).map (·.text)).flatten =
        before ++ (l.text ++ (ls.map (·.text)).flatten) := by
      rw [List.map_cons, List.flatten_cons]
    rw [hsplit] at h ⊢
    have hat : At (before ++ (l.text ++ (ls.map (·.text)).flatten)) before.size
        (l.text ++ (ls.map (·.text)).flatten) := ⟨before, rfl, rfl⟩
    have hrest := ih (before ++ l.text) (fun l' hl' => hls l' (List.mem_cons_of_mem l hl'))
      (by rwa [List.append_assoc])
    rw [List.append_assoc, Text.size_append] at hrest
    simp only [Text.size_append, UInt32.size] at h
    refine hrest.cons ?_ ?_ (Nat.lt_add_of_pos_right hpos) hat hat.advance
    · exact Nat.mod_eq_of_lt (by omega)
    · exact Nat.mod_eq_of_lt (by omega)

theorem lexemes_ne_nil (shortTags : Bool) (m : Mode) (s : Text) :
    ∀ l ∈ Lexeme.readAll shortTags m s, l.text ≠ [] := by
  fun_induction Lexeme.readAll shortTags m s with
  | case1 =>
    intro l hl
    cases hl
  | case2 m c r x ih =>
    intro l hl
    rcases List.mem_cons.1 hl with rfl | hl
    · exact (m.lexeme_splits shortTags c r).2
    · exact ih l hl

theorem tokens_eq_place (shortTags : Bool) (s : Text) : (s.lex shortTags).tokens =
    (Lexeme.place 0 (s.lexemes shortTags)).map (·.piece.token) := by
  rw [Lexing.tokens, Text.lex, List.map_map]
  rfl

/-- The tokens of a text tile it. -/
theorem tokens_tile (shortTags : Bool) (s : Text) (hs : s.size < UInt32.size) :
    Tiles s 0 (s.lex shortTags).tokens := by
  have htiles := tiles_place [] (s.lexemes shortTags) (lexemes_ne_nil shortTags .html s)
  rw [List.nil_append, s.flatten_lexemes shortTags] at htiles
  rw [tokens_eq_place]
  exact htiles hs

/-- What meets and is not empty is in order, also across what stands between. -/
theorem Tiles.ordered {s : Text} {start : Nat} {tokens : List Token} (h : Tiles s start tokens) :
    tokens.Pairwise fun a b => a.span.stop ≤ b.span.start := by
  let Before : Token → Token → Prop := fun a b =>
    a.span.start < a.span.stop ∧ a.span.stop ≤ b.span.start ∧ b.span.start < b.span.stop
  have htrans : Trans Before Before Before := ⟨fun {a b c} hab hbc =>
    ⟨hab.1, UInt32.le_trans hab.2.1 (UInt32.le_trans (UInt32.le_of_lt hbc.1) hbc.2.1), hbc.2.2⟩⟩
  have hchain : tokens.IsChain Before := by
    refine h.adjacent.imp_of_mem_imp ?_
    intro a b ha hb hmeet
    exact ⟨h.nonempty a ha, hmeet ▸ UInt32.le_refl _, h.nonempty b hb⟩
  exact hchain.pairwise.imp fun hbefore => hbefore.2.1

theorem lex_tiles (shortTags : Bool) (s : Text) (hs : s.size < UInt32.size) :
    lex shortTags s = .ok ((s.lex shortTags).tokens, (s.lex shortTags).diagnostics) ∧
      Tiles s 0 (s.lex shortTags).tokens ∧ ((s.lex shortTags).tokens = [] ↔ s = []) ∧
      ((s.lex shortTags).tokens.map (·.span.text s)).flatten = s := by
  have hflatten := s.flatten_lexemes shortTags
  refine ⟨lex_eq shortTags s hs, tokens_tile shortTags s hs, ?_, ?_⟩
  · rw [tokens_eq_place, List.map_eq_nil_iff]
    constructor
    · intro hnil
      cases hlexemes : s.lexemes shortTags with
      | nil =>
        rw [hlexemes] at hflatten
        exact hflatten.symm
      | cons l ls =>
        rw [hlexemes] at hnil
        cases hnil
    · rintro rfl
      rw [Text.lexemes, Lexeme.readAll]
      rfl
  · have hpieces : (s.lex shortTags).tokens.map (·.inText s) = (s.lex shortTags).pieces :=
      Text.inText_tokens hs
    have htexts : (s.lex shortTags).tokens.map (·.span.text s) =
        ((s.lex shortTags).tokens.map (·.inText s)).map (·.text) := by
      rw [List.map_map]
      rfl
    rw [htexts, hpieces, Text.lex, List.map_map]
    exact (congrArg List.flatten (map_text_place 0 (s.lexemes shortTags))).trans hflatten

theorem lex_tiles_heredoc :
    Text.size "é<?php \"\x7b$a\x7d\" <<<X\né\n X;".toList < UInt32.size ∧
      (Text.lex false "é<?php \"\x7b$a\x7d\" <<<X\né\n X;".toList).tokens.map (·.span.stop) =
        [2, 8, 14, 15, 25, 26] ∧
      ∃ tokens diagnostics,
        lex false "é<?php \"\x7b$a\x7d\" <<<X\né\n X;".toList = .ok (tokens, diagnostics) ∧
          Tiles "é<?php \"\x7b$a\x7d\" <<<X\né\n X;".toList 0 tokens := by
  have htiles := lex_tiles false "é<?php \"\x7b$a\x7d\" <<<X\né\n X;".toList (by decide)
  exact ⟨by decide, by decide +kernel, _, _, htiles.1, htiles.2.1⟩

end PhpImports.Cursor
