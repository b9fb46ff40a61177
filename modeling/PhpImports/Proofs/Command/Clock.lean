import PhpImports.Command.Clock
import PhpImports.Proofs.Text.Location
import Mathlib.Tactic.Ring

/-!
# Printed times

Milliseconds are printed exactly, whatever is rounded on the way, as long as they are less than
2 ^ 43 (`Clock.thousandths_eq`). What depends on the clock of a run are decimals in an object or on
a line, and texts that are otherwise the same are the same but for their times (`SameButTimes`).
-/

namespace PhpImports

theorem roundQuotient_error (n : Nat) {d : Nat} (hd : 0 < d) :
    2 * (roundQuotient n d * d) ≤ 2 * n + d ∧ 2 * n ≤ 2 * (roundQuotient n d * d) + d := by
  have hn := Nat.div_add_mod n d
  have hr := Nat.mod_lt n hd
  have hnext := Nat.add_one_mul (n / d) d
  rw [Nat.mul_comm] at hn
  simp only [roundQuotient]
  split <;> omega

/-- Nothing is lost of an integer of 53 binary digits. -/
theorem roundDouble_one {n : Nat} (h : n < 2 ^ 53) : roundDouble n 1 = n := by
  have hzeros : n.log2 - 52 = 0 := by
    rcases Nat.eq_zero_or_pos n with rfl | hpos
    · rfl
    · have hlog := (Nat.log2_lt (Nat.pos_iff_ne_zero.1 hpos)).2 h
      omega
  have herror := roundQuotient_error n Nat.one_pos
  rw [roundDouble, Nat.div_one, hzeros]
  simp only [Nat.shiftLeft_zero]
  omega

/-- The unit in which a quotient is rounded, times what it is divided by, is the most that is lost
twice over. -/
theorem roundDouble_error (n : Nat) {d k : Nat} (hd : 0 < d) (h : n / d < 2 ^ (k + 53)) :
    2 * (roundDouble n d * d) ≤ 2 * n + d * 2 ^ k ∧
      2 * n ≤ 2 * (roundDouble n d * d) + d * 2 ^ k := by
  have hzeros : (n / d).log2 - 52 ≤ k := by
    rcases Nat.eq_zero_or_pos (n / d) with hzero | hpos
    · rw [hzero]
      exact Nat.zero_le _
    · have hlog := (Nat.log2_lt (Nat.pos_iff_ne_zero.1 hpos)).2 h
      omega
  rw [roundDouble]
  generalize (n / d).log2 - 52 = zeros at hzeros
  have hunit : d * 2 ^ zeros ≤ d * 2 ^ k :=
    Nat.mul_le_mul_left d (Nat.pow_le_pow_right (by decide) hzeros)
  have herror := roundQuotient_error n (d := d <<< zeros)
    (by rw [Nat.shiftLeft_eq]; exact Nat.mul_pos hd (Nat.two_pow_pos zeros))
  simp only [Nat.shiftLeft_eq] at herror ⊢
  have hprod : roundQuotient n (d * 2 ^ zeros) * 2 ^ zeros * d =
      roundQuotient n (d * 2 ^ zeros) * (d * 2 ^ zeros) := by ring
  rw [hprod]
  omega

namespace Clock

/-- Milliseconds are printed as they are. -/
theorem thousandths_eq {micros : Nat} (h : micros < 1000 * 2 ^ 43) :
    thousandths micros = micros := by
  have hquotient : (micros * 2 ^ 64) / 1000 < 2 ^ (54 + 53) := by
    rw [Nat.div_lt_iff_lt_mul (by decide)]
    omega
  have hmillis := roundDouble_error (micros * 2 ^ 64) (by decide) hquotient
  have hthousandths := roundQuotient_error (roundDouble (micros * 2 ^ 64) 1000 * 1000)
    (Nat.two_pow_pos 64)
  have hone : roundDouble micros 1 = micros := roundDouble_one (by omega)
  simp only [thousandths, fraction, hone, Nat.shiftLeft_eq, Nat.one_mul]
  omega

example : millis 1234567 = "1234.567".toList := by decide

end Clock

/-- Digits and points. -/
def Text.IsDecimal (t : Text) : Prop :=
  ∀ c ∈ t, c.isDigit = true ∨ c = '.'

/-- The times in an object, behind their key. -/
def timingField (lex scan : Text) : Text :=
  "\"timing\":\x7b\"lex_us\":".toList ++ lex ++ ",\"scan_us\":".toList ++ scan ++ "\x7d".toList

/-- The times on a line. -/
def timingLine (lex scan : Text) : Text :=
  "TIMING lex=".toList ++ lex ++ "ms scan=".toList ++ scan ++ "ms".toList

/-- One text becomes the other when the times of an object or of a line are replaced. -/
inductive SameButTimes : Text → Text → Prop
  | same (s : Text) : SameButTimes s s
  | field {lex scan lex' scan' : Text} (decimal : ∀ t ∈ [lex, scan, lex', scan'], t.IsDecimal)
      (before behind : Text) :
    SameButTimes (before ++ timingField lex scan ++ behind)
      (before ++ timingField lex' scan' ++ behind)
  | line {lex scan lex' scan' : Text} (decimal : ∀ t ∈ [lex, scan, lex', scan'], t.IsDecimal)
      (before behind : Text) :
    SameButTimes (before ++ timingLine lex scan ++ behind)
      (before ++ timingLine lex' scan' ++ behind)

theorem Text.isDecimal_ofNat (n : Nat) : (Text.ofNat n).IsDecimal :=
  fun c hc => Or.inl (Text.isDigit_of_mem_ofNat c hc)

namespace Clock

theorem isDecimal_millis (micros : Nat) : (millis micros).IsDecimal := by
  have hdigit : ∀ k < 10, (Nat.digitChar k).isDigit = true := by decide
  intro c hc
  rcases List.mem_append.1 hc with hc | hc
  · exact Text.isDecimal_ofNat _ c hc
  · simp only [List.mem_cons, List.not_mem_nil, or_false] at hc
    rcases hc with rfl | rfl | rfl | rfl
    · exact Or.inr rfl
    all_goals exact Or.inl (hdigit _ (Nat.mod_lt _ (by decide)))

theorem isDecimal_shown (c : Clock) (micros : Nat) : (c.shown micros).IsDecimal := by
  cases c with
  | masked => exact List.forall_mem_singleton.2 (Or.inl rfl)
  | measured lex scan => exact isDecimal_millis micros

theorem line_eq (c : Clock) : c.line = timingLine (c.shown c.lex) (c.shown c.scan) := rfl

theorem compact_timing (m n : Nat) :
    Json.quote "timing".toList ++
        ':' :: (Json.obj [("lex_us".toList, .num m), ("scan_us".toList, .num n)]).compact =
      timingField (Text.ofNat m) (Text.ofNat n) := by
  have htiming : Json.quote "timing".toList = "\"timing\"".toList := by decide
  have hlex : Json.quote "lex_us".toList = "\"lex_us\"".toList := by decide
  have hscan : Json.quote "scan_us".toList = "\"scan_us\"".toList := by decide
  unfold timingField
  simp only [Json.compact, Json.compactFields, htiming, hlex, hscan]
  simp

/-- Lines of two clocks in one place. -/
theorem sameButTimes_line (c c' : Clock) (before behind : Text) :
    SameButTimes (before ++ c.line ++ behind) (before ++ c'.line ++ behind) := by
  refine .line (List.forall_mem_cons.2 ⟨c.isDecimal_shown _, ?_⟩) before behind
  simp [isDecimal_shown]

/-- Objects of two clocks in one place. -/
theorem sameButTimes_json (c c' : Clock) (before behind : Text) :
    SameButTimes (before ++ (Json.quote "timing".toList ++ ':' :: c.json.compact) ++ behind)
      (before ++ (Json.quote "timing".toList ++ ':' :: c'.json.compact) ++ behind) := by
  rw [json, json, compact_timing, compact_timing]
  exact .field (by simp [Text.isDecimal_ofNat]) before behind

end Clock
end PhpImports
