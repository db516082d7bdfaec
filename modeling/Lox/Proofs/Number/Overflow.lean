import Lox.Number

/-!
# Where doubles end

A natural number has a nearest double up to half a unit below `2 ^ 1024`. That half itself rounds to
the even significand, which is the one past the largest double.
-/

namespace Lox.Number

/-- The least natural number that rounds past the largest double. -/
def overflow : Nat := Nat.pow 2 1024 - Nat.pow 2 970

theorem two_pow_pos (k : Nat) : 0 < Nat.pow 2 k := Nat.pow_pos (by decide)

theorem two_pow_add (a b : Nat) : Nat.pow 2 a * Nat.pow 2 b = Nat.pow 2 (a + b) :=
  (Nat.pow_add 2 a b).symm

theorem div_le_halveEven (n k : Nat) : n / Nat.pow 2 k ≤ halveEven n k := by
  simp only [halveEven]
  split <;> omega

theorem halveEven_le (n k : Nat) : halveEven n k ≤ n / Nat.pow 2 k + 1 := by
  simp only [halveEven]
  split <;> omega

theorem halveEven_of_odd {n k : Nat} (h : n / Nat.pow 2 k % 2 = 1) :
    n / Nat.pow 2 k < halveEven n k ↔ Nat.pow 2 k ≤ 2 * (n % Nat.pow 2 k) := by
  simp only [halveEven]
  generalize n / Nat.pow 2 k = quotient at *
  generalize n % Nat.pow 2 k = remainder
  generalize Nat.pow 2 k = divisor
  split <;> omega

/-- In the topmost binade a number rounds up past the largest double from the middle of the last
unit on. -/
theorem halveEven_top_iff {n : Nat} (hn : n < Nat.pow 2 1024) :
    Nat.pow 2 53 ≤ halveEven n 971 ↔ overflow ≤ n := by
  have hunit : Nat.pow 2 971 = 2 * Nat.pow 2 970 := by decide +kernel
  have htop : Nat.pow 2 1024 = 18014398509481984 * Nat.pow 2 970 := by decide +kernel
  have hhalf : Nat.pow 2 53 = 9007199254740992 := by decide +kernel
  have hpos := two_pow_pos 970
  have hsplit := Nat.div_add_mod n (Nat.pow 2 971)
  have hlow := div_le_halveEven n 971
  have hhigh := halveEven_le n 971
  have hodd := @halveEven_of_odd n 971
  have hmod := Nat.mod_lt n (two_pow_pos 971)
  rw [overflow, htop, hhalf]
  rw [htop] at hn
  generalize halveEven n 971 = rounded at *
  generalize n / Nat.pow 2 971 = quotient at *
  generalize n % Nat.pow 2 971 = remainder at *
  rw [hunit] at hsplit hodd hmod
  generalize Nat.pow 2 970 = unit at *
  by_cases hquotient : quotient = 9007199254740991
  · subst hquotient
    have := hodd (by decide)
    omega
  · have hsmall : quotient ≤ 9007199254740990 := by
      rcases Nat.lt_or_ge quotient 9007199254740991 with h | h
      · omega
      · have := Nat.mul_le_mul_left (2 * unit) (show 9007199254740992 ≤ quotient by omega)
        omega
    have := Nat.mul_le_mul_left (2 * unit) hsmall
    omega

def significand (n : Nat) : Nat :=
  if n.log2 ≤ 52 then n * Nat.pow 2 (52 - n.log2) else halveEven n (n.log2 - 52)

theorem log2_bounds {n : Nat} (hn : n ≠ 0) :
    Nat.pow 2 n.log2 ≤ n ∧ n < Nat.pow 2 (n.log2 + 1) :=
  ⟨Nat.log2_self_le hn, Nat.lt_log2_self⟩

theorem significand_bounds {n : Nat} (hn : n ≠ 0) :
    Nat.pow 2 52 ≤ significand n ∧ significand n ≤ Nat.pow 2 53 := by
  obtain ⟨hlow, hhigh⟩ := log2_bounds hn
  unfold significand
  split
  · next h =>
    have hshift := Nat.mul_le_mul_right (Nat.pow 2 (52 - n.log2)) hlow
    have hshift' := Nat.mul_le_mul_right (Nat.pow 2 (52 - n.log2)) (Nat.le_of_lt hhigh)
    rw [two_pow_add, show n.log2 + (52 - n.log2) = 52 by omega] at hshift
    rw [two_pow_add, show n.log2 + 1 + (52 - n.log2) = 53 by omega] at hshift'
    exact ⟨hshift, hshift'⟩
  · next h =>
    have hquotient : Nat.pow 2 52 ≤ n / Nat.pow 2 (n.log2 - 52) := by
      rw [Nat.le_div_iff_mul_le (two_pow_pos _), two_pow_add,
        show 52 + (n.log2 - 52) = n.log2 by omega]
      exact hlow
    have hquotient' : n / Nat.pow 2 (n.log2 - 52) < Nat.pow 2 53 := by
      rw [Nat.div_lt_iff_lt_mul (two_pow_pos _), two_pow_add,
        show 53 + (n.log2 - 52) = n.log2 + 1 by omega]
      exact hhigh
    exact ⟨Nat.le_trans hquotient (div_le_halveEven n _),
      Nat.le_trans (halveEven_le n _) hquotient'⟩

theorem ofNat_eq_none_iff_bits {n : Nat} (hn : n ≠ 0) :
    ofNat? n = none ↔
      2047 * Nat.pow 2 52 ≤ (n.log2 + 1022) * Nat.pow 2 52 + significand n := by
  have hbits : bitsNearest n = (n.log2 + 1022) * Nat.pow 2 52 + significand n := rfl
  rw [← hbits, ofNat?, if_neg hn]
  split
  · next h => simpa using h
  · next h => simpa using h

theorem ofNat_eq_none_iff (n : Nat) : ofNat? n = none ↔ overflow ≤ n := by
  have hbound : Nat.pow 2 1023 ≤ overflow ∧ overflow ≤ Nat.pow 2 1024 := by decide +kernel
  by_cases hn : n = 0
  · subst hn
    have hpos : 0 < overflow := by decide +kernel
    constructor
    · intro h
      cases h
    · intro h
      exact absurd h (Nat.not_le.mpr hpos)
  obtain ⟨hlow, hhigh⟩ := log2_bounds hn
  obtain ⟨hsig, hsig'⟩ := significand_bounds hn
  have hhalf : Nat.pow 2 53 = 2 * Nat.pow 2 52 := by decide
  have hunit := two_pow_pos 52
  rw [ofNat_eq_none_iff_bits hn]
  rcases Nat.lt_trichotomy n.log2 1023 with hlog | hlog | hlog
  · have hexponent := Nat.mul_le_mul_right (Nat.pow 2 52) (show n.log2 + 1022 ≤ 2044 by omega)
    have hsmall : n < overflow :=
      calc n < Nat.pow 2 (n.log2 + 1) := hhigh
        _ ≤ Nat.pow 2 1023 := Nat.pow_le_pow_right (by decide) hlog
        _ ≤ overflow := hbound.1
    generalize Nat.pow 2 52 = unit at *
    omega
  · have htop := @halveEven_top_iff n (by rw [hlog] at hhigh; exact hhigh)
    have heq : significand n = halveEven n 971 := by simp [significand, hlog]
    rw [hlog, heq, ← htop, hhalf]
    generalize Nat.pow 2 52 = unit at *
    omega
  · have hexponent := Nat.mul_le_mul_right (Nat.pow 2 52) (show 2046 ≤ n.log2 + 1022 by omega)
    have hlarge : overflow ≤ n :=
      calc overflow ≤ Nat.pow 2 1024 := hbound.2
        _ ≤ Nat.pow 2 n.log2 := Nat.pow_le_pow_right (by decide) hlog
        _ ≤ n := hlow
    generalize Nat.pow 2 52 = unit at *
    omega

end Lox.Number
