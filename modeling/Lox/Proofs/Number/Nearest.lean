import Lox.Proofs.Number.Rounding

/-!
# The double nearest to a number

Rounding is defined by all doubles at once: a number rounds to a double of its sign if none is
nearer, and if a tie is settled by the even significand. The numbers that round to a double are then
shown to be those in the interval around it, whose ends lie in the middle between the double and its
neighbours.
-/

namespace Lox.Number

/-- The significands and exponents of finite doubles. Only at the least exponent can the leading bit
be missing. -/
structure IsDouble (m : Nat) (e : Int) : Prop where
  short : m < Nat.pow 2 53
  least : -1074 ≤ e
  most : e ≤ 971
  leading : Nat.pow 2 52 ≤ m ∨ e = -1074

/-- The leading bit of a significand adds one to the exponent that is stored. -/
def bitsOf (negative : Bool) (m : Nat) (e : Int) : Nat :=
  (if negative then Nat.pow 2 63 else 0) + (e + 1074).toNat * Nat.pow 2 52 + m

theorem shapeOfBits_eq_finite_iff {bits m : Nat} {negative : Bool} {e : Int}
    (hbits : bits < Nat.pow 2 64) :
    shapeOfBits bits = .finite negative m e ↔ IsDouble m e ∧ bits = bitsOf negative m e := by
  obtain ⟨h52, h53, -⟩ := pow_values
  have h63 : Nat.pow 2 63 = 9223372036854775808 := by decide
  have h64 : Nat.pow 2 64 = 18446744073709551616 := by decide
  rw [h64] at hbits
  simp only [shapeOfBits, bitsOf, h52, h63]
  constructor
  · intro h
    have hsign : bits = (if decide (9223372036854775808 ≤ bits) = true then 9223372036854775808
        else 0) + bits % 9223372036854775808 := by
      by_cases hnegative : 9223372036854775808 ≤ bits
      · simp only [hnegative, decide_true, if_true]
        omega
      · simp only [hnegative, decide_false, Bool.false_eq_true, if_false]
        omega
    split at h
    · split at h <;> cases h
    · split at h <;> obtain ⟨rfl, rfl, rfl⟩ := Shape.finite.inj h <;>
        generalize (if decide (9223372036854775808 ≤ bits) = true then _ else _) = sign at hsign ⊢
      · refine ⟨⟨by omega, by omega, by omega, Or.inr rfl⟩, ?_⟩
        rw [Int.add_left_neg, Int.toNat_zero]
        omega
      · exact ⟨⟨by omega, by omega, by omega, Or.inl (by omega)⟩, by omega⟩
  · rintro ⟨⟨hshort, hleast, hmost, hleading⟩, rfl⟩
    rw [h53] at hshort
    rw [h52] at hleading
    cases negative <;> simp only [Bool.false_eq_true, if_true, if_false] <;>
      rw [if_neg (by omega)] <;> split <;>
      simp only [Shape.finite.injEq, decide_eq_true_eq, decide_eq_false_iff_not] <;> omega

theorem shape_eq_finite_iff {x : Float} {negative : Bool} {m : Nat} {e : Int} :
    shape x = .finite negative m e ↔ IsDouble m e ∧ x.toBits.toNat = bitsOf negative m e :=
  shapeOfBits_eq_finite_iff x.toBits.toNat_lt

theorem eq_of_toBits_eq {x y : Float} (h : x.toBits.toNat = y.toBits.toNat) : x = y := by
  obtain ⟨⟨b, hb⟩⟩ := x
  obtain ⟨⟨c, hc⟩⟩ := y
  obtain rfl : b = c := UInt64.toNat_inj.mp h
  rfl

theorem eq_of_shape_eq {x y : Float} {negative : Bool} {m : Nat} {e : Int}
    (hx : shape x = .finite negative m e) (hy : shape y = .finite negative m e) : x = y :=
  eq_of_toBits_eq ((shape_eq_finite_iff.mp hx).2.trans (shape_eq_finite_iff.mp hy).2.symm)

theorem IsDouble.exists_shape {m : Nat} {e : Int} (h : IsDouble m e) (negative : Bool) :
    ∃ x, shape x = .finite negative m e := by
  obtain ⟨h52, h53, -⟩ := pow_values
  have h63 : Nat.pow 2 63 = 9223372036854775808 := by decide
  have hsmall : bitsOf negative m e < 2 ^ 64 ∧ bitsOf negative m e / 2 ^ 52 % 2048 < 2047 := by
    obtain ⟨hshort, hleast, hmost, -⟩ := h
    rw [h53] at hshort
    simp only [bitsOf, h52, h63]
    cases negative <;> simp only [Bool.false_eq_true, if_true, if_false] <;> omega
  have hnat : (UInt64.ofNat (bitsOf negative m e)).toNat = bitsOf negative m e :=
    UInt64.toNat_ofNat_of_lt' hsmall.1
  refine ⟨Float.ofBits (UInt64.ofNat (bitsOf negative m e)), shape_eq_finite_iff.mpr ⟨h, ?_⟩⟩
  rw [toBits_ofBits (by rw [hnat]; exact hsmall.2), hnat]

def signedBy (negative : Bool) (r : ℚ) : ℚ := if negative then -r else r

def value? (x : Float) : Option ℚ :=
  match shape x with
  | .finite negative m e => some (signedBy negative (m * 2 ^ e))
  | _ => none

/-- The number of the given sign and magnitude rounds to the double, which has that sign: no double
is nearer, and if another one is as near, then this one has the even significand. From half a unit
past the largest double on, a number rounds to none. -/
inductive Rounds (negative : Bool) (r : ℚ) (x : Float) : Prop
  | intro {m : Nat} {e : Int} (hx : shape x = .finite negative m e) (hrange : r < overflow)
      (hnearest : ∀ y w, value? y = some w →
        |signedBy negative r - signedBy negative (m * 2 ^ e)| ≤ |signedBy negative r - w|)
      (heven : ∀ y w, value? y = some w →
        |signedBy negative r - signedBy negative (m * 2 ^ e)| = |signedBy negative r - w| →
        w = signedBy negative (m * 2 ^ e) ∨ m % 2 = 0) :
      Rounds negative r x

namespace Interval

def lowEnd (i : Interval) : ℚ := i.low * 2 ^ i.exponent

def highEnd (i : Interval) : ℚ := i.high * 2 ^ i.exponent

def Contains (i : Interval) (r : ℚ) : Prop :=
  i.lowEnd ≤ r ∧ r ≤ i.highEnd ∧ (i.closed = false → i.lowEnd < r ∧ r < i.highEnd)

theorem zpow_mul_neg_toNat {b : ℚ} (hb : b ≠ 0) (z : Int) :
    b ^ z * b ^ (-z).toNat = b ^ z.toNat := by
  rw [← zpow_natCast, ← zpow_natCast, ← zpow_add₀ hb]
  congr 1
  omega

/-- The scale on which an interval is compared with multiples of `10 ^ t` has one unit for both. -/
theorem exists_unit (i : Interval) (t : Int) :
    ∃ unit : ℚ, 0 < unit ∧ (i.scale t : ℚ) = 2 ^ i.exponent * unit ∧
      (i.step t : ℚ) = 10 ^ t * unit := by
  refine ⟨2 ^ (-i.exponent).toNat * 10 ^ (-t).toNat, by positivity, ?_, ?_⟩
  · rw [← mul_assoc, zpow_mul_neg_toNat two_ne_zero]
    exact_mod_cast rfl
  · rw [mul_left_comm, zpow_mul_neg_toNat (by norm_num), mul_comm]
    exact_mod_cast rfl

theorem has_iff_contains {i : Interval} {d : Nat} {t : Int} :
    i.has d t = true ↔ i.Contains (d * 10 ^ t) := by
  obtain ⟨unit, hunit, hscale, hstep⟩ := i.exists_unit t
  have hle (a : Nat) : a * i.scale t ≤ d * i.step t ↔ a * 2 ^ i.exponent ≤ (d : ℚ) * 10 ^ t := by
    rw [← Nat.cast_le (α := ℚ), Nat.cast_mul, Nat.cast_mul, hscale, hstep, ← mul_assoc, ← mul_assoc]
    exact mul_le_mul_iff_of_pos_right hunit
  have hge (a : Nat) : d * i.step t ≤ a * i.scale t ↔ (d : ℚ) * 10 ^ t ≤ a * 2 ^ i.exponent := by
    rw [← Nat.cast_le (α := ℚ), Nat.cast_mul, Nat.cast_mul, hscale, hstep, ← mul_assoc, ← mul_assoc]
    exact mul_le_mul_iff_of_pos_right hunit
  simp only [has_iff, Contains, lowEnd, highEnd, ← Nat.not_le, hle, hge, not_le]

end Interval

section

variable {m n : Nat} {e f : Int}

theorem unit_split (h : f ≤ e) : (2 : ℚ) ^ e = ((2 ^ (e - f).toNat : Nat) : ℚ) * 2 ^ f := by
  rw [Nat.cast_pow, Nat.cast_ofNat, ← zpow_natCast, ← zpow_add₀ (by norm_num),
    Int.toNat_of_nonneg (by omega), Int.sub_add_cancel]

theorem unit_double (h : f < e) : 2 * (2 : ℚ) ^ f ≤ 2 ^ e := by
  rw [← zpow_one_add₀ (by norm_num)]
  exact zpow_le_zpow_right₀ (by norm_num) (by omega)

theorem highEnd_around (m : Nat) (e : Int) :
    (Interval.around m e).highEnd = (m + 1 / 2) * 2 ^ e := by
  simp only [Interval.highEnd, Interval.around, zpow_sub₀ (by norm_num : (2 : ℚ) ≠ 0)]
  push_cast
  ring

theorem lowEnd_around_least (h : -1074 < e) :
    (Interval.around (Nat.pow 2 52) e).lowEnd = (4503599627370496 - 1 / 4) * 2 ^ e := by
  simp only [Interval.lowEnd, Interval.around, h, and_self, if_true, pow_values.1,
    zpow_sub₀ (by norm_num : (2 : ℚ) ≠ 0)]
  norm_num
  ring

theorem lowEnd_around (hm : 0 < m) (h : ¬ (m = Nat.pow 2 52 ∧ -1074 < e)) :
    (Interval.around m e).lowEnd = (m - 1 / 2) * 2 ^ e := by
  simp only [Interval.lowEnd, Interval.around, h, if_false,
    zpow_sub₀ (by norm_num : (2 : ℚ) ≠ 0)]
  rw [Nat.cast_sub (by omega)]
  push_cast
  ring

theorem lowEnd_zero (e : Int) : (Interval.around 0 e).lowEnd = 0 := by
  simp [Interval.lowEnd, Interval.around]

theorem lowEnd_pos (hm : 0 < m) : 0 < (Interval.around m e).lowEnd := by
  have hlow : 0 < (Interval.around m e).low := by
    simp only [Interval.around]
    split <;> omega
  unfold Interval.lowEnd
  positivity

theorem IsDouble.smaller (h : IsDouble m e) (h' : IsDouble n f) (hlt : f < e) :
    Nat.pow 2 52 ≤ m ∧ (n : ℚ) * 2 ^ f ≤ (9007199254740991 : ℚ) / 2 * 2 ^ e := by
  have hleast := h'.least
  have hshort := h'.short
  have hn : (n : ℚ) ≤ 9007199254740991 := by
    rw [pow_values.2.1] at hshort
    exact_mod_cast Nat.le_of_lt_succ hshort
  refine ⟨h.leading.resolve_right (by omega), ?_⟩
  calc (n : ℚ) * 2 ^ f ≤ 9007199254740991 * 2 ^ f := by gcongr
    _ = 9007199254740991 / 2 * (2 * 2 ^ f) := by ring
    _ ≤ 9007199254740991 / 2 * 2 ^ e := by gcongr; exact unit_double hlt

/-- Between a double and the upper end of its interval lies half the way to any larger one. -/
theorem IsDouble.highEnd_le (h : IsDouble m e) (h' : IsDouble n f)
    (hlt : (m : ℚ) * 2 ^ e < n * 2 ^ f) :
    2 * (Interval.around m e).highEnd ≤ m * 2 ^ e + n * 2 ^ f := by
  have hunit : (0 : ℚ) < 2 ^ e := by positivity
  rw [highEnd_around]
  rcases lt_or_ge f e with hfe | hef
  · obtain ⟨hleading, hsmall⟩ := h.smaller h' hfe
    have hm : (4503599627370496 : ℚ) ≤ m := by
      rw [pow_values.1] at hleading
      exact_mod_cast hleading
    nlinarith
  · rw [unit_split hef, ← mul_assoc] at hlt ⊢
    have hnext : m + 1 ≤ n * 2 ^ (f - e).toNat := by
      exact_mod_cast lt_of_mul_lt_mul_right hlt hunit.le
    have hproduct : ((m : ℚ) + 1) * 2 ^ e ≤ n * (2 ^ (f - e).toNat : Nat) * 2 ^ e := by
      gcongr
      exact_mod_cast hnext
    linarith

theorem IsDouble.le_lowEnd (h : IsDouble m e) (h' : IsDouble n f)
    (hlt : (n : ℚ) * 2 ^ f < m * 2 ^ e) :
    m * 2 ^ e + n * 2 ^ f ≤ 2 * (Interval.around m e).lowEnd := by
  have hunit : (0 : ℚ) < 2 ^ e := by positivity
  have hm : 0 < m := by
    rcases Nat.eq_zero_or_pos m with rfl | hm
    · have hn : (0 : ℚ) ≤ n * 2 ^ f := by positivity
      rw [Nat.cast_zero, zero_mul] at hlt
      linarith
    · exact hm
  rcases lt_or_ge f e with hfe | hef
  · obtain ⟨hleading, hsmall⟩ := h.smaller h' hfe
    have hleast := h'.least
    by_cases hboundary : m = Nat.pow 2 52
    · subst hboundary
      rw [lowEnd_around_least (by omega), pow_values.1]
      push_cast
      linarith
    · rw [lowEnd_around hm (by tauto)]
      rw [pow_values.1] at hleading hboundary
      have hlarge : (4503599627370497 : ℚ) ≤ m := by
        exact_mod_cast (show 4503599627370497 ≤ m by omega)
      nlinarith
  · rw [unit_split hef, ← mul_assoc] at hlt ⊢
    have hprevious : n * 2 ^ (f - e).toNat + 1 ≤ m := by
      exact_mod_cast lt_of_mul_lt_mul_right hlt hunit.le
    have hproduct : ((n : ℚ) * (2 ^ (f - e).toNat : Nat) + 1) * 2 ^ e ≤ m * 2 ^ e := by
      gcongr
      exact_mod_cast hprevious
    by_cases hboundary : m = Nat.pow 2 52 ∧ -1074 < e
    · obtain ⟨rfl, hleast⟩ := hboundary
      rw [lowEnd_around_least hleast]
      rw [pow_values.1] at hproduct ⊢
      push_cast at hproduct ⊢
      linarith
    · rw [lowEnd_around hm hboundary]
      linarith

theorem cast_two_pow (k : Nat) : ((Nat.pow 2 k : Nat) : ℚ) = 2 ^ (k : Int) := by
  rw [zpow_natCast]
  exact Nat.cast_pow 2 k

theorem overflow_eq : (overflow : ℚ) = (9007199254740991 + 1 / 2) * 2 ^ (971 : Int) := by
  have hnat : ∀ k, k = 970 → overflow = 18014398509481983 * Nat.pow 2 k := by
    rintro k rfl
    decide +kernel
  obtain ⟨k, hk⟩ : ∃ k : Nat, k = 970 := ⟨970, rfl⟩
  rw [hnat k hk, Nat.cast_mul, cast_two_pow, show (971 : Int) = k + 1 by omega,
    zpow_add_one₀ two_ne_zero]
  push_cast
  ring

theorem IsDouble.exists_above (h : IsDouble m e) :
    (m % 2 = 1 ∧ (Interval.around m e).highEnd = overflow) ∨
      ∃ n f, IsDouble n f ∧ (m : ℚ) * 2 ^ e < n * 2 ^ f ∧
        m * 2 ^ e + n * 2 ^ f = 2 * (Interval.around m e).highEnd := by
  obtain ⟨hshort, hleast, hmost, hleading⟩ := h
  obtain ⟨h52, h53, -⟩ := pow_values
  have hunit : (0 : ℚ) < 2 ^ e := by positivity
  rw [h53] at hshort
  rw [h52] at hleading
  by_cases hlast : m = 9007199254740991
  · subst hlast
    rcases hmost.lt_or_eq with hmost | rfl
    · right
      refine ⟨Nat.pow 2 52, e + 1, ⟨by decide, by omega, by omega, Or.inl (Nat.le_refl _)⟩, ?_⟩
      rw [h52, highEnd_around, zpow_add_one₀ (by norm_num)]
      push_cast
      constructor <;> linarith
    · left
      rw [highEnd_around, overflow_eq]
      norm_num
  · right
    refine ⟨m + 1, e, ⟨by omega, hleast, hmost, by omega⟩, ?_⟩
    rw [highEnd_around]
    push_cast
    constructor <;> linarith

theorem IsDouble.exists_below (h : IsDouble m e) (hm : 0 < m) :
    ∃ n f, IsDouble n f ∧ (n : ℚ) * 2 ^ f < m * 2 ^ e ∧
      m * 2 ^ e + n * 2 ^ f = 2 * (Interval.around m e).lowEnd := by
  obtain ⟨hshort, hleast, hmost, hleading⟩ := h
  obtain ⟨h52, h53, -⟩ := pow_values
  have hunit : (0 : ℚ) < 2 ^ e := by positivity
  by_cases hboundary : m = Nat.pow 2 52 ∧ -1074 < e
  · obtain ⟨rfl, hleast⟩ := hboundary
    refine ⟨9007199254740991, e - 1, ⟨by omega, by omega, by omega, Or.inl (by omega)⟩, ?_⟩
    rw [lowEnd_around_least hleast, h52, zpow_sub_one₀ (by norm_num)]
    push_cast
    constructor <;> linarith
  · refine ⟨m - 1, e, ⟨by omega, hleast, hmost, by omega⟩, ?_⟩
    rw [lowEnd_around hm hboundary, Nat.cast_sub hm]
    push_cast
    constructor <;> linarith

end

theorem abs_sub_le_iff_of_lt {r v w : ℚ} (h : v < w) : |r - v| ≤ |r - w| ↔ 2 * r ≤ v + w := by
  rw [← sq_le_sq]
  constructor <;> intro <;> nlinarith

theorem abs_sub_le_iff_of_gt {r v w : ℚ} (h : w < v) : |r - v| ≤ |r - w| ↔ v + w ≤ 2 * r := by
  rw [← sq_le_sq]
  constructor <;> intro <;> nlinarith

theorem abs_signedBy_sub (negative : Bool) (r s : ℚ) :
    |signedBy negative r - signedBy negative s| = |r - s| := by
  cases negative with
  | false => rfl
  | true =>
    have hneg : signedBy true r - signedBy true s = -(r - s) := by
      simp only [signedBy, if_true]
      ring
    rw [hneg, abs_neg]

theorem abs_signedBy_sub_of_ne {b c : Bool} (h : b ≠ c) {r s : ℚ} (hr : 0 ≤ r) (hs : 0 ≤ s) :
    |signedBy b r - signedBy c s| = r + s := by
  have hpositive : 0 ≤ r + s := add_nonneg hr hs
  cases b <;> cases c <;> simp only [signedBy, Bool.false_eq_true, if_true, if_false]
  · contradiction
  · rw [sub_neg_eq_add, abs_of_nonneg hpositive]
  · rw [← neg_add', abs_neg, abs_of_nonneg hpositive]
  · contradiction

theorem eq_zero_of_abs_sub {r s : ℚ} (h : |r - s| = r + s) : r = 0 ∨ s = 0 := by
  have hsquare : (r - s) ^ 2 = (r + s) ^ 2 := by rw [← h, sq_abs]
  have hproduct : r * s = 0 := by linarith
  exact mul_eq_zero.mp hproduct

theorem value_eq_some {x : Float} {w : ℚ} (h : value? x = some w) :
    ∃ negative m e, shape x = .finite negative m e ∧ w = signedBy negative (m * 2 ^ e) := by
  unfold value? at h
  split at h
  · next negative m e hx => exact ⟨negative, m, e, hx, (Option.some.inj h).symm⟩
  · cases h

section

variable {m n : Nat} {e f : Int} {r : ℚ}

theorem IsDouble.nearest (h : IsDouble m e) (hr : (Interval.around m e).Contains r)
    (h' : IsDouble n f) : |r - m * 2 ^ e| ≤ |r - n * 2 ^ f| := by
  obtain ⟨hlow, hhigh, -⟩ := hr
  rcases lt_trichotomy ((m : ℚ) * 2 ^ e) (n * 2 ^ f) with hlt | heq | hgt
  · have hmiddle := h.highEnd_le h' hlt
    exact (abs_sub_le_iff_of_lt hlt).mpr (by linarith)
  · rw [heq]
  · have hmiddle := h.le_lowEnd h' hgt
    exact (abs_sub_le_iff_of_gt hgt).mpr (by linarith)

/-- Only at an end of the interval another double is as near, and an end belongs to it only if the
significand is even. -/
theorem IsDouble.even_of_tie (h : IsDouble m e) (hr : (Interval.around m e).Contains r)
    (h' : IsDouble n f) (htie : |r - m * 2 ^ e| = |r - n * 2 ^ f|) :
    (n : ℚ) * 2 ^ f = m * 2 ^ e ∨ m % 2 = 0 := by
  obtain ⟨hlow, hhigh, hopen⟩ := hr
  by_contra! hodd
  obtain ⟨hne, hodd⟩ := hodd
  obtain ⟨hlow, hhigh⟩ := hopen (decide_eq_false hodd)
  rcases lt_or_gt_of_ne hne with hlt | hgt
  · have hmiddle := h.le_lowEnd h' hlt
    have hback := (abs_sub_le_iff_of_lt hlt).mp htie.ge
    linarith
  · have hmiddle := h.highEnd_le h' hgt
    have hback := (abs_sub_le_iff_of_gt hgt).mp htie.ge
    linarith

theorem IsDouble.value_lt_overflow (h : IsDouble m e) : (m : ℚ) * 2 ^ e < overflow := by
  have hshort : (m : ℚ) ≤ 9007199254740991 := by
    have hshort := h.short
    rw [pow_values.2.1] at hshort
    exact_mod_cast Nat.le_of_lt_succ hshort
  have hunit : (2 : ℚ) ^ e ≤ 2 ^ (971 : Int) := zpow_le_zpow_right₀ (by norm_num) h.most
  have hpos : (0 : ℚ) < 2 ^ (971 : Int) := by positivity
  rw [overflow_eq]
  generalize (2 : ℚ) ^ (971 : Int) = unit at *
  calc (m : ℚ) * 2 ^ e ≤ 9007199254740991 * unit := by gcongr
    _ < (9007199254740991 + 1 / 2) * unit := by linarith

theorem IsDouble.lt_overflow (h : IsDouble m e) (hr : (Interval.around m e).Contains r) :
    r < overflow := by
  obtain ⟨-, hhigh, hopen⟩ := hr
  rcases h.exists_above with ⟨hodd, hlast⟩ | ⟨n, f, h', hlt, hmiddle⟩
  · rw [← hlast]
    exact (hopen (decide_eq_false (by omega))).2
  · have hlarger := h'.value_lt_overflow
    linarith

theorem rounds_of_contains {x : Float} {negative : Bool} (hx : shape x = .finite negative m e)
    (hr : 0 ≤ r) (h : (Interval.around m e).Contains r) : Rounds negative r x := by
  have hdouble := (shape_eq_finite_iff.mp hx).1
  -- A double of the other sign is at least as far as the one of the same magnitude.
  have hacross : ∀ {b : Bool} {n : Nat} {f : Int}, negative ≠ b →
      |r - n * 2 ^ f| ≤ |signedBy negative r - signedBy b (n * 2 ^ f)| := by
    intro b n f hb
    have hn : (0 : ℚ) ≤ n * 2 ^ f := by positivity
    rw [abs_signedBy_sub_of_ne hb hr hn, abs_le]
    constructor <;> linarith
  refine .intro hx (hdouble.lt_overflow h) (fun y w hy => ?_) fun y w hy htie => ?_
  · obtain ⟨b, n, f, hshape, rfl⟩ := value_eq_some hy
    have h' := (shape_eq_finite_iff.mp hshape).1
    rw [abs_signedBy_sub]
    have hnear := hdouble.nearest h h'
    by_cases hb : negative = b
    · subst hb
      rw [abs_signedBy_sub]
      exact hnear
    · exact hnear.trans (hacross hb)
  · obtain ⟨b, n, f, hshape, rfl⟩ := value_eq_some hy
    have h' := (shape_eq_finite_iff.mp hshape).1
    rw [abs_signedBy_sub] at htie
    by_cases hb : negative = b
    · subst hb
      rw [abs_signedBy_sub] at htie
      exact (hdouble.even_of_tie h h' htie).imp_left (congrArg _)
    · have hback : |r - n * 2 ^ f| ≤ |r - m * 2 ^ e| := htie ▸ hacross hb
      rcases hdouble.even_of_tie h h' (le_antisymm (hdouble.nearest h h') hback) with hsame | heven
      · rw [abs_signedBy_sub_of_ne hb hr (by positivity), hsame] at htie
        rw [hsame]
        rcases eq_zero_of_abs_sub htie with rfl | hzero
        · right
          rcases Nat.eq_zero_or_pos m with rfl | hm
          · rfl
          · exact absurd h.1 (not_le.mpr (lowEnd_pos hm))
        · left
          rw [hzero]
          simp [signedBy]
      · exact Or.inr heven

theorem signedBy_inj {negative : Bool} {r s : ℚ} (h : signedBy negative r = signedBy negative s) :
    r = s := by
  cases negative with
  | false => exact h
  | true => exact neg_inj.mp h

theorem Rounds.lt_overflow {negative : Bool} {x : Float} (h : Rounds negative r x) :
    r < overflow := by
  cases h
  assumption

theorem Rounds.near {x : Float} {negative : Bool} (h : Rounds negative r x)
    (hx : shape x = .finite negative m e) (h' : IsDouble n f) :
    |r - m * 2 ^ e| ≤ |r - n * 2 ^ f| ∧
      (|r - m * 2 ^ e| = |r - n * 2 ^ f| → (n : ℚ) * 2 ^ f = m * 2 ^ e ∨ m % 2 = 0) := by
  obtain @⟨m', e', hx', -, hnearest, heven⟩ := h
  obtain ⟨-, rfl, rfl⟩ := Shape.finite.inj (hx.symm.trans hx')
  obtain ⟨y, hy⟩ := h'.exists_shape negative
  have hvalue : value? y = some (signedBy negative (n * 2 ^ f)) := by simp only [value?, hy]
  have hnear := hnearest y _ hvalue
  have htie := heven y _ hvalue
  rw [abs_signedBy_sub, abs_signedBy_sub] at hnear htie
  exact ⟨hnear, fun heq => (htie heq).imp_left signedBy_inj⟩

/-- What rounds to a double lies in the interval around it, since at each end begins the interval
around a neighbour. -/
theorem contains_of_rounds {x : Float} {negative : Bool} (hx : shape x = .finite negative m e)
    (hr : 0 ≤ r) (h : Rounds negative r x) : (Interval.around m e).Contains r := by
  have hdouble := (shape_eq_finite_iff.mp hx).1
  have hrange := h.lt_overflow
  have hhigh : r ≤ (Interval.around m e).highEnd ∧
      (m % 2 = 1 → r < (Interval.around m e).highEnd) := by
    rcases hdouble.exists_above with ⟨-, hlast⟩ | ⟨n, f, h', hlt, hmiddle⟩
    · rw [hlast]
      exact ⟨hrange.le, fun _ => hrange⟩
    · obtain ⟨hnear, htie⟩ := h.near hx h'
      have hle := (abs_sub_le_iff_of_lt hlt).mp hnear
      refine ⟨by linarith, fun hodd => lt_of_le_of_ne (by linarith) ?_⟩
      rintro rfl
      have hend : n * 2 ^ f + m * 2 ^ e ≤ 2 * (Interval.around m e).highEnd := by linarith
      have hback := (abs_sub_le_iff_of_gt hlt).mpr hend
      rcases htie (le_antisymm hnear hback) with hsame | heven
      · exact hlt.ne' hsame
      · omega
  have hlow : (Interval.around m e).lowEnd ≤ r ∧
      (m % 2 = 1 → (Interval.around m e).lowEnd < r) := by
    rcases Nat.eq_zero_or_pos m with rfl | hm
    · rw [lowEnd_zero]
      exact ⟨hr, fun hodd => absurd hodd (by decide)⟩
    · obtain ⟨n, f, h', hlt, hmiddle⟩ := hdouble.exists_below hm
      obtain ⟨hnear, htie⟩ := h.near hx h'
      have hle := (abs_sub_le_iff_of_gt hlt).mp hnear
      refine ⟨by linarith, fun hodd => lt_of_le_of_ne (by linarith) ?_⟩
      rintro rfl
      have hend : 2 * (Interval.around m e).lowEnd ≤ n * 2 ^ f + m * 2 ^ e := by linarith
      have hback := (abs_sub_le_iff_of_lt hlt).mpr hend
      rcases htie (le_antisymm hnear hback) with hsame | heven
      · exact hlt.ne hsame
      · omega
  refine ⟨hlow.1, hhigh.1, fun hopen => ?_⟩
  have hodd : m % 2 = 1 := by
    have := of_decide_eq_false hopen
    omega
  exact ⟨hlow.2 hodd, hhigh.2 hodd⟩

theorem IsDouble.unique (h : IsDouble m e) (h' : IsDouble n f)
    (heq : (m : ℚ) * 2 ^ e = n * 2 ^ f) : m = n ∧ e = f := by
  have happart : ∀ {a b : Nat} {c d : Int}, IsDouble a c → IsDouble b d → d < c →
      (b : ℚ) * 2 ^ d < a * 2 ^ c := by
    intro a b c d ha hb hlt
    obtain ⟨hleading, hsmall⟩ := ha.smaller hb hlt
    have hunit : (0 : ℚ) < 2 ^ c := by positivity
    have hlarge : (4503599627370496 : ℚ) ≤ a := by
      rw [pow_values.1] at hleading
      exact_mod_cast hleading
    nlinarith
  rcases lt_trichotomy e f with hlt | rfl | hgt
  · exact absurd heq (happart h' h hlt).ne
  · exact ⟨by exact_mod_cast mul_right_cancel₀ (by positivity) heq, rfl⟩
  · exact absurd heq (happart h h' hgt).ne'

/-- Behind an even significand, the next double that can be as near has an odd one. -/
theorem IsDouble.odd_of_tie (h : IsDouble m e) (h' : IsDouble n f) (hm : m % 2 = 0)
    (hlt : (m : ℚ) * 2 ^ e < n * 2 ^ f) (htie : |r - m * 2 ^ e| = |r - n * 2 ^ f|)
    (hnearest : ∀ {k : Nat} {g : Int}, IsDouble k g → |r - m * 2 ^ e| ≤ |r - k * 2 ^ g|) :
    n % 2 = 1 := by
  have hnext : IsDouble (m + 1) e := by
    obtain ⟨hshort, hleast, hmost, hleading⟩ := h
    rw [pow_values.2.1] at hshort
    exact ⟨by rw [pow_values.2.1]; omega, hleast, hmost, by omega⟩
  have hunit : (0 : ℚ) < 2 ^ e := by positivity
  have hstep : (m : ℚ) * 2 ^ e < (m + 1 : Nat) * 2 ^ e := by
    push_cast
    linarith
  have hmiddle := h.highEnd_le h' hlt
  have hhalf := (abs_sub_le_iff_of_gt hlt).mp htie.ge
  have hnear := (abs_sub_le_iff_of_lt hstep).mp (hnearest hnext)
  rw [highEnd_around] at hmiddle
  push_cast at hnear
  have hsame : (n : ℚ) * 2 ^ f = (m + 1 : Nat) * 2 ^ e := by
    push_cast
    linarith
  obtain ⟨rfl, -⟩ := h'.unique hnext hsame
  omega

theorem Rounds.unique {negative : Bool} {x y : Float} (hx : Rounds negative r x)
    (hy : Rounds negative r y) : x = y := by
  obtain ⟨m, e, hshape⟩ : ∃ m e, shape x = .finite negative m e := by
    obtain ⟨hshape⟩ := hx
    exact ⟨_, _, hshape⟩
  obtain ⟨n, f, hshape'⟩ : ∃ n f, shape y = .finite negative n f := by
    obtain ⟨hshape⟩ := hy
    exact ⟨_, _, hshape⟩
  have hm := (shape_eq_finite_iff.mp hshape).1
  have hn := (shape_eq_finite_iff.mp hshape').1
  obtain ⟨hle, heven⟩ := hx.near hshape hn
  obtain ⟨hge, heven'⟩ := hy.near hshape' hm
  have htie := le_antisymm hle hge
  by_cases hsame : (m : ℚ) * 2 ^ e = n * 2 ^ f
  · obtain ⟨rfl, rfl⟩ := hm.unique hn hsame
    exact eq_of_shape_eq hshape hshape'
  · have hmeven := (heven htie).resolve_left fun heq => hsame heq.symm
    have hneven := (heven' htie.symm).resolve_left hsame
    rcases lt_or_gt_of_ne hsame with hlt | hgt
    · have hodd := hm.odd_of_tie hn hmeven hlt htie fun hk => (hx.near hshape hk).1
      omega
    · have hodd := hn.odd_of_tie hm hneven hgt htie.symm fun hk => (hy.near hshape' hk).1
      omega

end

end Lox.Number
