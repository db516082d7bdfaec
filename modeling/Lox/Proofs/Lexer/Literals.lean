import Lox.Proofs.Number.Nearest
import Lox.Proofs.Lexer.Exactness
import Lox.Proofs.Number.Shortest

/-!
# Reading number literals

A run of digits is read as the double nearest to its value, of two equally near ones as the even
one, or it is refused whole if the value lies too high. Rounding the significand keeps the value
within half a unit of the last place, so that it lies in the interval around the double that is made
of it.
-/

namespace Lox.Number

theorem halveEven_rounds (n k : Nat) : RoundsTo n (Nat.pow 2 k) (halveEven n k) := by
  have hsplit := Nat.div_add_mod n (Nat.pow 2 k)
  have hmod := Nat.mod_lt n (two_pow_pos k)
  rw [Nat.mul_comm] at hsplit
  simp only [halveEven]
  generalize n / Nat.pow 2 k = quotient at *
  generalize n % Nat.pow 2 k = remainder at *
  generalize Nat.pow 2 k = unit at *
  have hnext : (quotient + 1) * unit = quotient * unit + unit := by ring
  split
  · constructor <;> rw [hnext] <;> generalize quotient * unit = whole at * <;> omega
  · constructor <;> generalize quotient * unit = whole at * <;> omega

theorem RoundsTo.mul {n unit m c : Nat} (hc : 0 < c) (h : RoundsTo n unit m) :
    RoundsTo (n * c) (unit * c) m := by
  have hle (a b : Nat) (hab : a ≤ b) : a * c ≤ b * c := Nat.mul_le_mul_right c hab
  have hlt (a b : Nat) (hab : a < b) : a * c < b * c := Nat.mul_lt_mul_of_pos_right hab hc
  refine ⟨by linarith [hle _ _ h.low], by linarith [hle _ _ h.high], fun hodd => ?_⟩
  obtain ⟨hlow, hhigh⟩ := h.tie hodd
  exact ⟨by linarith [hlt _ _ hlow], by linarith [hlt _ _ hhigh]⟩

theorem significand_rounds (n : Nat) :
    RoundsTo (n * Nat.pow 2 52) (Nat.pow 2 n.log2) (significand n) := by
  unfold significand
  split
  · next hsmall =>
    have hexact : n * Nat.pow 2 (52 - n.log2) * Nat.pow 2 n.log2 = n * Nat.pow 2 52 := by
      rw [Nat.mul_assoc, two_pow_add, Nat.sub_add_cancel hsmall]
    have hpos := two_pow_pos n.log2
    constructor <;> rw [hexact] <;> omega
  · next hlarge =>
    have hunit : Nat.pow 2 n.log2 = Nat.pow 2 (n.log2 - 52) * Nat.pow 2 52 := by
      rw [two_pow_add, Nat.sub_add_cancel (by omega)]
    rw [hunit]
    exact (halveEven_rounds n _).mul (two_pow_pos 52)

theorem between_of_bitsNearest {n m k : Nat} (hn : n ≠ 0) (hm : IsNormal m)
    (h : bitsNearest n = (k + 1022) * Nat.pow 2 52 + m) : Between n m k := by
  have hbits : bitsNearest n = (n.log2 + 1022) * Nat.pow 2 52 + significand n := rfl
  obtain ⟨hleast, hmost⟩ := significand_bounds hn
  obtain ⟨hlow, hhigh⟩ := log2_bounds hn
  obtain ⟨hbelow, habove, htie⟩ := significand_rounds n
  obtain ⟨hm, hm'⟩ := hm
  obtain ⟨h52, h53, h54⟩ := pow_values
  rw [hbits, h52] at h
  rw [h52] at hleast hm hbelow habove htie
  rw [h53] at hmost hm'
  rcases Nat.lt_or_ge (significand n) 9007199254740992 with hcarry | hcarry
  · obtain ⟨rfl, hm⟩ : k = n.log2 ∧ significand n = m := by omega
    rw [hm] at hbelow habove htie
    constructor <;> rw [h54]
    · split
      · next hleast =>
        rw [hleast, h52]
        linarith
      · linarith
    · linarith
    · intro hodd
      obtain ⟨hbelow, habove⟩ := htie hodd
      exact ⟨by linarith, by linarith⟩
  · obtain ⟨rfl, rfl⟩ : k = n.log2 + 1 ∧ m = 4503599627370496 := by omega
    have hnext : Nat.pow 2 (n.log2 + 1) = 2 * Nat.pow 2 n.log2 := Nat.pow_succ'
    rw [Nat.le_antisymm hmost hcarry] at hbelow
    rw [hnext] at hhigh
    constructor <;> rw [h54, hnext]
    · rw [if_pos h52.symm]
      linarith
    · linarith
    · exact fun hodd => absurd hodd (by decide)

theorem contains_of_between {n m k : Nat} (hm : IsNormal m) (h : Between n m k) :
    (Interval.around m (k - 52)).Contains n := by
  have hunit : ((Nat.pow 2 k : Nat) : ℚ) = 2 ^ ((k : Int) - 52) * 4503599627370496 := by
    rw [cast_two_pow, zpow_sub₀ two_ne_zero]
    norm_num
  have hpos : 0 < m := Nat.lt_of_lt_of_le (two_pow_pos 52) hm.low
  obtain ⟨hlow, hhigh, htie⟩ := h
  rw [pow_values.2.2] at hlow hhigh htie
  rw [← Nat.cast_le (α := ℚ)] at hlow hhigh
  rw [← Nat.cast_lt (α := ℚ), ← Nat.cast_lt (α := ℚ)] at htie
  push_cast [hunit] at hlow hhigh htie
  have hclosed (hopen : (Interval.around m (k - 52)).closed = false) : m % 2 = 1 := by
    have hodd := of_decide_eq_false hopen
    omega
  rw [Interval.Contains, highEnd_around]
  by_cases hleast : m = Nat.pow 2 52
  · rw [if_pos hleast] at hlow
    subst hleast
    rw [lowEnd_around_least (by omega)]
    refine ⟨?_, ?_, fun hopen => absurd (hclosed hopen) (by decide)⟩
    · rw [pow_values.1, Nat.cast_ofNat] at hlow
      linarith
    · linarith
  · rw [if_neg hleast] at hlow
    rw [lowEnd_around hpos (by tauto)]
    refine ⟨by linarith, by linarith, fun hopen => ?_⟩
    obtain ⟨hbelow, habove⟩ := htie (hclosed hopen)
    exact ⟨by linarith, by linarith⟩

/-- Below the limit, a natural number is read as the double that it rounds to. -/
theorem ofNat_rounds {n : Nat} (h : n < overflow) : ∃ x, ofNat? n = some x ∧ Rounds false n x := by
  obtain ⟨x, hx⟩ : ∃ x, ofNat? n = some x := by
    refine Option.ne_none_iff_exists'.mp fun hnone => ?_
    exact absurd ((ofNat_eq_none_iff n).mp hnone) (Nat.not_le.mpr h)
  refine ⟨x, hx, ?_⟩
  by_cases hn : n = 0
  · subst hn
    cases hx
    have hzero : shape (Float.ofBits 0) = .finite false 0 (-1074) := by decide +kernel
    refine rounds_of_contains hzero (by simp) ⟨?_, ?_, fun hopen => absurd hopen (by decide)⟩
    · rw [lowEnd_zero, Nat.cast_zero]
    · rw [highEnd_around]
      have hunit : (0 : ℚ) < 2 ^ (-1074 : Int) := by positivity
      generalize (2 : ℚ) ^ (-1074 : Int) = unit at *
      rw [Nat.cast_zero]
      linarith
  · obtain ⟨m, k, hm, hbits, hshape, -⟩ := shape_of_ofNat hn hx
    exact rounds_of_contains hshape (Nat.cast_nonneg n)
      (contains_of_between hm (between_of_bitsNearest hn hm hbits))

end Lox.Number

namespace Lox.Lexer

theorem next_digits {gap cs rest : List Char} {c : Char} (hgap : Gap gap)
    (hc : Text.isDigit c = true) (line : Nat) :
    next ⟨line, gap ++ (c :: cs) ++ rest⟩ = number (line + gap.count '\n') c (cs ++ rest) := by
  rw [List.append_assoc, List.cons_append, next_settled hgap (settled_digit hc),
    lexeme_digit _ _ hc]

/-- The literal that denotes `n` is read as the one double to which `n` rounds if `n` is less than
`2 ^ 1024 - 2 ^ 970`, and is faulty as a whole otherwise. -/
theorem next_literal {gap digits rest : List Char} (hgap : Gap gap) (hne : digits ≠ [])
    (hdigits : ∀ c ∈ digits, Text.isDigit c = true)
    (hrest : ∀ c ∈ rest.head?, Text.isDigit c = false) (line : Nat) :
    (Number.digitsValue digits < Number.overflow →
      ∃ x, next ⟨line, gap ++ digits ++ rest⟩ =
          .ok (⟨.number, .number x, (line + gap.count '\n' : Nat)⟩, ⟨line + gap.count '\n', rest⟩) ∧
        ∀ y, Number.Rounds false (Number.digitsValue digits) y ↔ y = x) ∧
    (Number.overflow ≤ Number.digitsValue digits →
      next ⟨line, gap ++ digits ++ rest⟩ =
        .error ⟨.invalidNumber (String.ofList digits), ⟨line + gap.count '\n', rest⟩⟩) := by
  obtain ⟨c, cs, rfl⟩ := List.exists_cons_of_ne_nil hne
  have hc := hdigits c List.mem_cons_self
  have hcs : ∀ d ∈ cs, Text.isDigit d = true := fun d hd => hdigits d (List.mem_cons_of_mem c hd)
  rw [next_digits hgap hc]
  constructor
  · intro hsmall
    obtain ⟨x, hx, hrounds⟩ := Number.ofNat_rounds hsmall
    refine ⟨x, number_whole _ hcs hrest hx, fun y => ⟨fun hy => hy.unique hrounds, ?_⟩⟩
    rintro rfl
    exact hrounds
  · exact number_overflow _ hcs hrest

/-- Half a unit above `2 ^ 53` a literal is read, at the limit it is not. -/
theorem next_literal_at_edges :
    (∃ x, next ⟨1, ['\n'] ++ "0009007199254740993".toList ++ [';']⟩ =
        .ok (⟨.number, .number x, 2⟩, ⟨2, [';']⟩) ∧
      ∀ y, Number.Rounds false (Number.digitsValue "0009007199254740993".toList) y ↔ y = x) ∧
    next ⟨1, [] ++ Nat.toDigits 10 Number.overflow ++ []⟩ =
      .error ⟨.invalidNumber (String.ofList (Nat.toDigits 10 Number.overflow)), ⟨1, []⟩⟩ := by
  refine ⟨(next_literal (.blank (by decide) .nil) (by simp) ?_ (by simp [Text.isDigit]) 1).1 ?_,
    (next_literal .nil Nat.toDigits_ne_nil ?_ (by simp) 1).2 ?_⟩
  · exact List.all_eq_true.mp (by decide)
  · decide +kernel
  · exact fun c hc => Number.isDigit_toDigits hc
  · exact (Number.digitsValue_toDigits _).ge

end Lox.Lexer
