import Lox.Number
import Lox.Proofs.Number.Overflow
import Mathlib

/-!
# What rounds to a double

A natural number rounds to a double iff it lies in the interval around the double, between the
halves towards its two neighbours. The significand decides the ties, and the interval is shorter
below a power of two, where the neighbour has half the unit.
-/

namespace Lox.Number

/-- `n` lies within half a unit of `m` units, and at that distance only if `m` is even. -/
structure RoundsTo (n unit m : Nat) : Prop where
  low : 2 * (m * unit) ≤ 2 * n + unit
  high : 2 * n ≤ 2 * (m * unit) + unit
  tie : m % 2 = 1 → 2 * (m * unit) < 2 * n + unit ∧ 2 * n < 2 * (m * unit) + unit

theorem RoundsTo.scaled {n unit m c : Nat} (hc : 0 < c) (h : RoundsTo (n * c) (unit * c) m) :
    RoundsTo n unit m := by
  have hle (a b : Nat) (hab : a * c ≤ b * c) : a ≤ b := Nat.le_of_mul_le_mul_right hab hc
  have hlt (a b : Nat) (hab : a * c < b * c) : a < b := Nat.lt_of_mul_lt_mul_right hab
  refine ⟨hle _ _ (by linarith [h.low]), hle _ _ (by linarith [h.high]), fun hodd => ?_⟩
  obtain ⟨hlow, hhigh⟩ := h.tie hodd
  exact ⟨hlt _ _ (by linarith), hlt _ _ (by linarith)⟩

theorem RoundsTo.eq_of_exact {s unit m : Nat} (h : RoundsTo (s * unit) unit m)
    (hunit : 0 < unit) : s = m := by
  have hle : 2 * m ≤ 2 * s + 1 := Nat.le_of_mul_le_mul_right (by linarith [h.low]) hunit
  have hge : 2 * s ≤ 2 * m + 1 := Nat.le_of_mul_le_mul_right (by linarith [h.high]) hunit
  omega

theorem halveEven_eq {n k m : Nat} (h : RoundsTo n (Nat.pow 2 k) m) : halveEven n k = m := by
  have hunit := two_pow_pos k
  have hsplit := Nat.div_add_mod n (Nat.pow 2 k)
  have hmod := Nat.mod_lt n hunit
  obtain ⟨hlow, hhigh, htie⟩ := h
  simp only [halveEven]
  generalize n / Nat.pow 2 k = quotient at *
  generalize n % Nat.pow 2 k = remainder at *
  generalize Nat.pow 2 k = unit at *
  -- Only the quotient and the number after it are that near.
  have hbelow : 2 * quotient < 2 * m + 2 := Nat.lt_of_mul_lt_mul_right (a := unit) (by linarith)
  have habove : 2 * m < 2 * quotient + 3 := Nat.lt_of_mul_lt_mul_right (a := unit) (by linarith)
  obtain rfl | rfl : m = quotient ∨ m = quotient + 1 := by omega
  · rw [Nat.mul_comm] at hsplit
    generalize m * unit = whole at *
    rw [if_neg (by omega)]
  · have hwhole : (quotient + 1) * unit = unit * quotient + unit := by ring
    rw [hwhole] at hlow hhigh htie
    generalize unit * quotient = whole at *
    rw [if_pos (by omega)]

theorem significand_eq {n m : Nat} (h : RoundsTo (n * Nat.pow 2 52) (Nat.pow 2 n.log2) m) :
    significand n = m := by
  unfold significand
  split
  · next hsmall =>
    refine RoundsTo.eq_of_exact ?_ (two_pow_pos n.log2)
    rw [Nat.mul_assoc, two_pow_add, Nat.sub_add_cancel hsmall]
    exact h
  · next hlarge =>
    apply halveEven_eq
    apply RoundsTo.scaled (two_pow_pos 52)
    rw [two_pow_add, Nat.sub_add_cancel (by omega)]
    exact h

structure IsNormal (m : Nat) : Prop where
  low : Nat.pow 2 52 ≤ m
  high : m < Nat.pow 2 53

/-- `n` lies in the interval around `m * 2 ^ k / 2 ^ 52`, whose lower half is cut by half if `m` is
the least significand. -/
structure Between (n m k : Nat) : Prop where
  low : 4 * m * Nat.pow 2 k ≤
    n * Nat.pow 2 54 + (if m = Nat.pow 2 52 then 1 else 2) * Nat.pow 2 k
  high : n * Nat.pow 2 54 ≤ 4 * m * Nat.pow 2 k + 2 * Nat.pow 2 k
  tie : m % 2 = 1 → 4 * m * Nat.pow 2 k < n * Nat.pow 2 54 + 2 * Nat.pow 2 k ∧
    n * Nat.pow 2 54 < 4 * m * Nat.pow 2 k + 2 * Nat.pow 2 k

theorem bitsNearest_of_log2 {n k s : Nat} (hlow : Nat.pow 2 k ≤ n) (hhigh : n < Nat.pow 2 (k + 1))
    (hs : RoundsTo (n * Nat.pow 2 52) (Nat.pow 2 k) s) :
    bitsNearest n = (k + 1022) * Nat.pow 2 52 + s := by
  have hpos := two_pow_pos k
  have hlog : n.log2 = k := (Nat.log2_eq_iff (by omega)).mpr ⟨hlow, hhigh⟩
  have hbits : bitsNearest n = (n.log2 + 1022) * Nat.pow 2 52 + significand n := rfl
  rw [hbits, significand_eq (by rw [hlog]; exact hs), hlog]

theorem pow_values : Nat.pow 2 52 = 4503599627370496 ∧ Nat.pow 2 53 = 9007199254740992 ∧
    Nat.pow 2 54 = 18014398509481984 := by
  decide

theorem Between.bitsNearest_above {n m k : Nat} (h : Between n m k) (hm : IsNormal m)
    (hn : Nat.pow 2 k ≤ n) : bitsNearest n = (k + 1022) * Nat.pow 2 52 + m := by
  obtain ⟨hlow, hhigh, htie⟩ := h
  obtain ⟨hleast, hmost⟩ := hm
  obtain ⟨h52, h53, h54⟩ := pow_values
  have hnext : Nat.pow 2 (k + 1) = 2 * Nat.pow 2 k := Nat.pow_succ'
  rw [h52] at hleast
  rw [h53] at hmost
  rw [h52, h54] at hlow
  rw [h54] at hhigh htie
  have hproduct := Nat.mul_le_mul_right (Nat.pow 2 k) (show m ≤ 9007199254740991 by omega)
  apply bitsNearest_of_log2 hn
  · rw [hnext]
    linarith [two_pow_pos k]
  · rw [h52]
    refine ⟨?_, by linarith, fun hodd => ⟨by linarith [(htie hodd).1], by linarith [(htie hodd).2]⟩⟩
    split at hlow <;> linarith

/-- Below the least significand, rounding carries over to the next exponent. -/
theorem Between.bitsNearest_below {n m k : Nat} (h : Between n m k) (hm : IsNormal m)
    (hn : n < Nat.pow 2 k) : bitsNearest n = (k + 1022) * Nat.pow 2 52 + m := by
  obtain ⟨hlow, -, -⟩ := h
  obtain ⟨hleast, -⟩ := hm
  obtain ⟨h52, h53, h54⟩ := pow_values
  have hm : m = Nat.pow 2 52 := by
    by_contra hne
    rw [if_neg hne, h54] at hlow
    rw [h52] at hleast hne
    have hproduct := Nat.mul_le_mul_right (Nat.pow 2 k) (show 4503599627370497 ≤ m by omega)
    linarith [two_pow_pos k]
  subst hm
  rw [if_pos rfl, h52, h54] at hlow
  cases k with
  | zero =>
    have hone : Nat.pow 2 0 = 1 := rfl
    rw [hone] at hlow hn
    omega
  | succ j =>
    have hhalf : Nat.pow 2 (j + 1) = 2 * Nat.pow 2 j := Nat.pow_succ'
    rw [hhalf] at hlow hn
    have hbits : bitsNearest n = (j + 1022) * Nat.pow 2 52 + Nat.pow 2 53 := by
      apply bitsNearest_of_log2
      · linarith
      · rw [hhalf]
        exact hn
      · rw [h52, h53]
        exact ⟨by linarith, by linarith, fun hodd => absurd hodd (by decide)⟩
    rw [hbits, h52, h53]
    ring

theorem Between.bitsNearest {n m k : Nat} (h : Between n m k) (hm : IsNormal m) :
    bitsNearest n = (k + 1022) * Nat.pow 2 52 + m := by
  rcases Nat.lt_or_ge n (Nat.pow 2 k) with hn | hn
  · exact h.bitsNearest_below hm hn
  · exact h.bitsNearest_above hm hn

theorem Between.ne_zero {n m k : Nat} (h : Between n m k) (hm : IsNormal m) : n ≠ 0 := by
  rintro rfl
  have hlow := h.low
  have hproduct := Nat.mul_le_mul_right (Nat.pow 2 k) hm.low
  rw [pow_values.1] at hproduct
  split at hlow <;> linarith [two_pow_pos k]

theorem Interval.has_iff {i : Interval} {d : Nat} {t : Int} :
    i.has d t = true ↔
      i.low * i.scale t ≤ d * i.step t ∧ d * i.step t ≤ i.high * i.scale t ∧
        (i.closed = false →
          i.low * i.scale t < d * i.step t ∧ d * i.step t < i.high * i.scale t) := by
  unfold has
  cases i.closed with
  | true => simp
  | false =>
    simp only [Bool.false_eq_true, if_false, Bool.and_eq_true, decide_eq_true_eq, true_implies]
    omega

theorem mul_le_mul_iff_of_ratio {a b u v u' v' : Nat} (hu : 0 < u) (hv' : 0 < v')
    (h : u * u' = v * v') : a * u ≤ b * v ↔ a * v' ≤ b * u' := by
  have hleft : a * u * v' = a * v' * u := by ring
  have hright : b * v * v' = b * u' * u := by
    rw [Nat.mul_assoc, ← h]
    ring
  rw [← Nat.mul_le_mul_right_iff hv', hleft, hright, Nat.mul_le_mul_right_iff hu]

/-- Whether an interval has a natural number, in units of `2 ^ -54`. -/
theorem Interval.has_natural_iff {i : Interval} {k d : Nat} {t : Int} (hi : i.exponent = k - 54)
    (ht : 0 ≤ t) :
    i.has d t = true ↔
      i.low * Nat.pow 2 k ≤ d * Nat.pow 10 t.toNat * Nat.pow 2 54 ∧
      d * Nat.pow 10 t.toNat * Nat.pow 2 54 ≤ i.high * Nat.pow 2 k ∧
      (i.closed = false → i.low * Nat.pow 2 k < d * Nat.pow 10 t.toNat * Nat.pow 2 54 ∧
        d * Nat.pow 10 t.toNat * Nat.pow 2 54 < i.high * Nat.pow 2 k) := by
  generalize hwide : Nat.pow 2 i.exponent.toNat = wide
  generalize hnarrow : Nat.pow 2 (-i.exponent).toNat = narrow
  have hwide_pos : 0 < wide := hwide ▸ two_pow_pos _
  have hnarrow_pos : 0 < narrow := hnarrow ▸ two_pow_pos _
  have hratio : wide * Nat.pow 2 54 = narrow * Nat.pow 2 k := by
    rw [← hwide, ← hnarrow, two_pow_add, two_pow_add]
    congr 1
    omega
  have hscale : i.scale t = wide := by
    rw [scale, hwide, show (-t).toNat = 0 by omega]
    exact Nat.mul_one wide
  have hstep : d * i.step t = d * Nat.pow 10 t.toNat * narrow := by
    rw [step, hnarrow, Nat.mul_assoc]
  simp only [has_iff, hscale, hstep, ← Nat.not_le,
    mul_le_mul_iff_of_ratio hwide_pos (two_pow_pos k) hratio,
    mul_le_mul_iff_of_ratio hnarrow_pos (two_pow_pos 54) hratio.symm]

theorem between_of_has {m k d : Nat} {t : Int} (hm : IsNormal m) (ht : 0 ≤ t)
    (h : (Interval.around m (k - 52)).has d t = true) : Between (d * Nat.pow 10 t.toNat) m k := by
  have hexponent : (Interval.around m (k - 52)).exponent = k - 54 := by
    simp only [Interval.around]
    omega
  have hlower : (Interval.around m (k - 52)).low + (if m = Nat.pow 2 52 then 1 else 2) = 4 * m := by
    have hpos := hm.low
    rw [pow_values.1] at hpos
    have hnear : (-1074 : Int) < k - 52 := by omega
    simp only [Interval.around, hnear, and_true]
    split <;> omega
  have hupper : (Interval.around m (k - 52)).high = 4 * m + 2 := rfl
  obtain ⟨hlow, hhigh, htie⟩ := (Interval.has_natural_iff hexponent ht).mp h
  rw [hupper] at hhigh htie
  generalize (Interval.around m (k - 52)).low = lower at *
  refine ⟨?_, by linarith, fun hodd => ?_⟩
  · rw [← hlower]
    linarith
  · have hne : m ≠ Nat.pow 2 52 := by
      rintro rfl
      exact absurd hodd (by decide)
    rw [if_neg hne] at hlower
    obtain ⟨hbelow, habove⟩ := htie (decide_eq_false (by omega))
    rw [← hlower] at habove ⊢
    exact ⟨by linarith, by linarith⟩

theorem ofNat_eq_some_iff {n : Nat} {x : Float} (hn : n ≠ 0) :
    ofNat? n = some x ↔ bitsNearest n < 2047 * Nat.pow 2 52 ∧
      Float.ofBits (UInt64.ofNat (bitsNearest n)) = x := by
  rw [ofNat?, if_neg hn]
  split <;> simp_all

section

open Float.Model (Format)
open Float.Model.UnpackedFloat

/-- A double that is made from bits has these bits, unless they encode no number. -/
theorem toBits_ofBits {b : UInt64} (h : b.toNat / 2 ^ 52 % 2048 < 2047) :
    (Float.ofBits b).toBits = b := by
  have hexponent : (@unpackExponent Format.binary64 b.toBitVec).toNat =
      b.toNat / 2 ^ 52 % 2048 := by
    simp [unpackExponent, Nat.shiftRight_eq_div_pow]
  have hones : @unpackExponent Format.binary64 b.toBitVec ≠ -1#11 := by
    intro hones
    rw [hones] at hexponent
    exact absurd (hexponent ▸ h) (by decide)
  have hnumber : @isNaNBits Format.binary64 b.toBitVec = false :=
    decide_eq_false fun hnan => hones hnan.1
  have hpack := @pack_unpack Format.binary64 b.toBitVec (by decide)
  rw [hnumber, if_neg Bool.false_ne_true] at hpack
  exact UInt64.toBitVec_inj.mp hpack

end

theorem shape_ofBits {m k : Nat} (hm : IsNormal m)
    (hfinite : (k + 1022) * Nat.pow 2 52 + m < 2047 * Nat.pow 2 52) :
    shape (Float.ofBits (UInt64.ofNat ((k + 1022) * Nat.pow 2 52 + m))) =
      .finite false m (k - 52) := by
  obtain ⟨hleast, hmost⟩ := hm
  obtain ⟨h52, h53, -⟩ := pow_values
  have h63 : Nat.pow 2 63 = 9223372036854775808 := by decide
  rw [h52] at hleast hfinite ⊢
  rw [h53] at hmost
  generalize hbits : (k + 1022) * 4503599627370496 + m = bits at *
  have hnat : (UInt64.ofNat bits).toNat = bits :=
    UInt64.toNat_ofNat_of_lt' (by rw [UInt64.size]; omega)
  have hbiased : bits / 4503599627370496 % 2048 = k + 1023 := by omega
  have hfraction : bits % 4503599627370496 = m - 4503599627370496 := by omega
  have hsame : (Float.ofBits (UInt64.ofNat bits)).toBits = UInt64.ofNat bits := by
    apply toBits_ofBits
    rw [hnat]
    omega
  rw [shape, hsame, hnat, shapeOfBits, h52, h63]
  have hpositive : decide (9223372036854775808 ≤ bits) = false := decide_eq_false (by omega)
  have hwhole : 4503599627370496 + (m - 4503599627370496) = m := Nat.add_sub_cancel' hleast
  have hexponent : ((k + 1023 : Nat) : Int) - 1075 = k - 52 := by omega
  simp only [hbiased, hfraction, hpositive, hwhole, hexponent]
  rw [if_neg (by omega), if_neg (by omega)]

theorem shape_of_ofNat {n : Nat} {x : Float} (hn : n ≠ 0) (h : ofNat? n = some x) :
    ∃ m k, IsNormal m ∧ bitsNearest n = (k + 1022) * Nat.pow 2 52 + m ∧
      shape x = .finite false m (k - 52) ∧ Nat.pow 2 (52 - k) ∣ m := by
  obtain ⟨hfinite, rfl⟩ := (ofNat_eq_some_iff hn).mp h
  obtain ⟨hleast, hmost⟩ := significand_bounds hn
  have hbits : bitsNearest n = (n.log2 + 1022) * Nat.pow 2 52 + significand n := rfl
  obtain ⟨h52, h53, -⟩ := pow_values
  rcases Nat.lt_or_ge (significand n) (Nat.pow 2 53) with hcarry | hcarry
  · refine ⟨significand n, n.log2, ⟨hleast, hcarry⟩, hbits, ?_, ?_⟩
    · rw [hbits] at hfinite ⊢
      exact shape_ofBits ⟨hleast, hcarry⟩ hfinite
    · unfold significand
      split
      · exact Nat.dvd_mul_left _ _
      · next hlarge =>
        rw [show 52 - n.log2 = 0 by omega]
        exact Nat.one_dvd _
  · have hnormal : IsNormal (Nat.pow 2 52) := ⟨Nat.le_refl _, by decide⟩
    have hnext : bitsNearest n = (n.log2 + 1 + 1022) * Nat.pow 2 52 + Nat.pow 2 52 := by
      rw [hbits, Nat.le_antisymm hmost hcarry, h52, h53]
      omega
    refine ⟨Nat.pow 2 52, n.log2 + 1, hnormal, hnext, ?_, ?_⟩
    · rw [hnext] at hfinite ⊢
      exact_mod_cast shape_ofBits hnormal hfinite
    · exact Nat.pow_dvd_pow 2 (Nat.sub_le 52 _)

end Lox.Number
