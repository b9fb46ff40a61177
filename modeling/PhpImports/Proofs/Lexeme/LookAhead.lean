import PhpImports.Proofs.Lexeme.LookAlike
import PhpImports.Proofs.Lexeme.Row

/-!
# How far reading looks ahead

A lexeme that stands in front of a text stands in front of every text that looks alike
(`Stands.lookAlike`, `StandsOutside.lookAlike`). Line comments, close tags and heredocs tell line
endings from other blanks, so for these the line ending behind them has to stay.
-/

namespace PhpImports.Lexeme

open Text (LookAlike)

variable {s t x y : Text} {afterAccess : Bool} {l : Lexeme}

theorem endsLineComment_lookAlike (h : LookAlike s t) (hhead : s.head? = t.head?) :
    endsLineComment s = endsLineComment t := by
  cases h with
  | nil => rfl
  | cons c hrest =>
    have hmark := hrest.head?_eq_iff (k := '>') (by decide)
    simp only [endsLineComment, hmark]
  | @cover c d s t hc hd _ =>
    obtain rfl : c = d := Option.some.inj hhead
    have hnone : ∀ c ∈ covers, c ≠ '?' := by decide
    simp only [endsLineComment, hnone c hc, decide_false, Bool.false_and]

theorem standsAlone_lookAlike (h : LookAlike x y) {c : Char} (hless : c ≠ '<') :
    standsAlone c x = standsAlone c y := by
  have hannounced := Lead.announced_of c
  rw [standsAlone, standsAlone]
  cases hlead : Lead.of c with
  | slash | question | minus | colon =>
    simp only [ne_eq, h.head?_eq_iff (k := '/') (by decide), h.head?_eq_iff (k := '*') (by decide),
      h.head?_eq_iff (k := '>') (by decide), h.head?_eq_iff (k := ':') (by decide),
      h.startsWith (show ∀ c ∈ "->".toList, c ∉ covers by decide)]
  | dollar => simp only [h.startsLabel]
  | dot => simp only [h.any_head? (p := Char.isDigit) (by decide)]
  | less =>
    rw [hlead] at hannounced
    exact absurd (by simpa [Lead.Announced, Lead.symbols] using hannounced) hless
  | _ => rfl

theorem closeTagLength_cons {c : Char} (hc : c ≠ '\r') (r : Text) :
    closeTagLength (c :: r) = if c = '\n' then 3 else 2 := by
  rw [closeTagLength.eq_def]
  split
  · next hs => simp [(List.cons.inj hs).1]
  · next hs => exact absurd (List.cons.inj hs).1 hc
  · next hne _ =>
    rw [if_neg]
    rintro rfl
    exact hne r rfl

/-- The line ending that a close tag takes with it. -/
theorem lineEnding_of_closeTagLength {e x : Text} (h : closeTagLength (e ++ x) = 2 + e.length) :
    e = [] ∧ closeTagLength x = 2 ∨ e = ['\n'] ∨ e = ['\r', '\n'] := by
  rcases e with _ | ⟨c, e⟩
  · exact Or.inl ⟨rfl, h⟩
  · right
    rw [closeTagLength.eq_def] at h
    split at h
    · next r hr =>
      obtain ⟨rfl, -⟩ := List.cons.inj hr
      have hnil : e = [] := by
        rw [← List.length_eq_zero_iff]
        simp only [List.length_cons] at h
        omega
      exact Or.inl (by rw [hnil])
    · next r hr =>
      obtain ⟨rfl, htail⟩ := List.cons.inj hr
      have hone : e.length = 1 := by
        simp only [List.length_cons] at h
        omega
      obtain ⟨d, rfl⟩ := List.length_eq_one_iff.1 hone
      obtain ⟨rfl, -⟩ := List.cons.inj htail
      exact Or.inr rfl
    · simp only [List.length_cons] at h
      omega

/-- What stands in front of a text stands in front of one that looks alike, if line endings end
there what they ended and heredocs are as they were. -/
theorem Stands.lookAlike (h : Stands afterAccess l x) (hxy : LookAlike x y)
    (hline : l.kind = .comment → opensLine l.text = true → endsLineComment x = true →
      endsLineComment y = true)
    (hclose : l.kind = .closeTag → closeTagLength x = 2 → closeTagLength y = 2)
    (hless : l.text = ['<'] → standsAlone '<' x = true → standsAlone '<' y = true)
    (hheredoc : ∀ t, heredoc? t = some (l, x) → Stands afterAccess l y) :
    Stands afterAccess l y := by
  cases h with
  | blanks hany hblank hends =>
    exact .blanks hany hblank ((hxy.any_head? (by decide)).symm.trans hends)
  | line hopens hinLine hends =>
    refine .line hopens hinLine ?_
    rcases hends with rfl | hends
    · exact Or.inl hxy.eq_nil
    · exact Or.inr (hline rfl hopens hends)
  | block hclosed => exact .block hclosed
  | openBlock hunclosed =>
    obtain rfl := hxy.eq_nil
    exact .openBlock hunclosed
  | mark hlead => exact .mark hlead
  | longMark hmem => exact .longMark hmem
  | closeTag hends =>
    rcases lineEnding_of_closeTagLength hends with ⟨rfl, hlength⟩ | rfl | rfl
    · exact .closeTag (hclose rfl hlength)
    · exact .closeTag rfl
    · exact .closeTag rfl
  | @operator c x halone =>
    by_cases hc : c = '<'
    · subst hc
      exact .operator (hless rfl halone)
    · exact .operator ((standsAlone_lookAlike hxy hc).symm.trans halone)
  | dollarName hstarts hlabel hends =>
    exact .dollarName hstarts hlabel ((hxy.any_head? (by decide)).symm.trans hends)
  | string hquote hclosed => exact .string hquote hclosed
  | openString hquote hunclosed =>
    obtain rfl := hxy.eq_nil
    exact .openString hquote hunclosed
  | heredoc hreads => exact hheredoc _ hreads
  | separator hends => exact .separator (hxy.startsLabel.symm.trans hends)
  | fullyQualified hstarts hrun => exact .fullyQualified hstarts (nameRun_lookAlike hxy hrun)
  | name hstarts hrun => exact .name hstarts (nameRun_lookAlike hxy hrun)
  | @number n x hstarts hreads =>
    have hall := numeralAlike_of_lookAlike (hxy.append_left n)
    exact .number (hall.startsNumber.symm.trans hstarts) (hall.numeral.symm.trans hreads)
  | stray hlead => exact .stray hlead

theorem StandsOutside.lookAlike {shortTags : Bool} (h : StandsOutside shortTags l x)
    (hxy : LookAlike x y) (hcr : '\r' ∉ l.text) : StandsOutside shortTags l y := by
  cases h with
  | echoTag => exact .echoTag
  | lastTag hword =>
    obtain rfl := hxy.eq_nil
    exact .lastTag hword
  | longTag hword hends =>
    refine .longTag hword ?_
    rcases hends with rfl | ⟨c, rfl, hblank, -⟩
    · exact Or.inl rfl
    · exact Or.inr ⟨c, rfl, hblank, fun hc => absurd (by simp [hc]) hcr⟩
  | shortTag hon hother hshort =>
    exact .shortTag hon (mt (hxy.head?_eq_iff (by decide)).2 hother)
      ((opensLongTag_lookAlike hxy).symm.trans hshort)
  | text hany hends => exact .text hany (hxy.breakAt (fun h => isSome_openTag?_lookAlike h) hends)

end PhpImports.Lexeme
