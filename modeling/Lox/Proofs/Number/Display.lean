import Lox.Proofs.Number.Nearest
import Lox.Proofs.Number.Numeral

/-!
# Numbers are displayed exactly

The search for a decimal starts above the double and leaves out no power of ten with a multiple in
the interval around the double. What it ends with has therefore the fewest digits of all decimals
that round to the double, and no two doubles are displayed alike.
-/

namespace Lox.Number

namespace Interval

variable {i : Interval} {d : Nat} {s t : Int}

/-- The two multiples around the middle stand for all others. -/
theorem not_has_of_multiple (hi : i.IsProper) (h : i.multiple? t = none) : i.has d t = false := by
  have hscale := i.scale_pos t
  have hlow := Nat.mul_lt_mul_of_pos_right hi.low hscale
  have hhigh := Nat.mul_lt_mul_of_pos_right hi.high hscale
  have hstep : 0 < i.step t := Nat.mul_pos (Nat.pow_pos (by decide)) (two_pow_pos _)
  have hbelow := Nat.div_mul_le_self (i.middle * i.scale t) (i.step t)
  have habove := Nat.lt_mul_of_div_lt (Nat.lt_add_one (i.middle * i.scale t / i.step t)) hstep
  unfold multiple? at h
  dsimp only at h
  split at h
  · next hfloor hnext =>
    rw [← Bool.not_eq_true] at hfloor hnext ⊢
    rw [has_iff] at hfloor hnext ⊢
    generalize i.middle * i.scale t / i.step t = floor at *
    rintro ⟨hleast, hmost, hopen⟩
    rcases Nat.lt_or_ge floor d with hd | hd
    · have hmore : (floor + 1) * i.step t ≤ d * i.step t := Nat.mul_le_mul_right _ hd
      refine hnext ⟨by omega, by omega, fun hclosed => ?_⟩
      have hopen := hopen hclosed
      omega
    · have hless : d * i.step t ≤ floor * i.step t := Nat.mul_le_mul_right _ hd
      refine hfloor ⟨by omega, by omega, fun hclosed => ?_⟩
      have hopen := hopen hclosed
      omega
  · cases h
  · cases h
  · split at h <;> cases h

theorem search_skips {n : Nat} (hs : (i.search n t).exponent < s) (hst : s ≤ t) :
    i.multiple? s = none := by
  induction n generalizing t with
  | zero => exact absurd hs (not_lt.mpr hst)
  | succ n ih =>
    rw [search] at hs
    split at hs
    · exact absurd hs (not_lt.mpr hst)
    · next hnone =>
      rcases hst.lt_or_eq with hlt | rfl
      · exact ih hs (by omega)
      · exact hnone

theorem Contains.between {a b c : ℚ} (ha : i.Contains a) (hc : i.Contains c) (hab : a ≤ b)
    (hbc : b ≤ c) : i.Contains b := by
  obtain ⟨hlow, -, hopen⟩ := ha
  obtain ⟨-, hhigh, hopen'⟩ := hc
  refine ⟨hlow.trans hab, hbc.trans hhigh, fun h => ?_⟩
  exact ⟨(hopen h).1.trans_le hab, hbc.trans_lt (hopen' h).2⟩

end Interval

theorem two_pow_le_decimalAbove (k : Int) : (2 : ℚ) ^ k ≤ 10 ^ decimalAbove k := by
  unfold decimalAbove
  split
  · calc (2 : ℚ) ^ k ≤ 2 ^ (3 * (k / 3 + 1)) := zpow_le_zpow_right₀ (by norm_num) (by omega)
      _ = (2 ^ (3 : Int)) ^ (k / 3 + 1) := zpow_mul 2 3 _
      _ ≤ 10 ^ (k / 3 + 1) := zpow_le_zpow_left₀ (by omega) (by norm_num) (by norm_num)
  · next hk =>
    obtain ⟨j, rfl⟩ : ∃ j : Nat, k = -j := ⟨(-k).toNat, by omega⟩
    have hquotient : (10 : ℚ) ^ (j * 3 / 10) ≤ 2 ^ j := by
      refine le_of_pow_le_pow_left₀ (n := 10) (by decide) (by positivity) ?_
      calc ((10 : ℚ) ^ (j * 3 / 10)) ^ 10 = 10 ^ (j * 3 / 10 * 10) := (pow_mul _ _ _).symm
        _ ≤ 10 ^ (3 * j) := pow_le_pow_right₀ (by norm_num) (by omega)
        _ = (10 ^ 3) ^ j := pow_mul _ _ _
        _ ≤ (2 ^ 10) ^ j := pow_le_pow_left₀ (by norm_num) (by norm_num) _
        _ = (2 ^ j) ^ 10 := by rw [← pow_mul, ← pow_mul, mul_comm]
    have hexponent : -(-(-(j : Int)) * 3 / 10) = -((j * 3 / 10 : Nat) : Int) := by omega
    rw [hexponent, zpow_neg, zpow_neg, zpow_natCast, zpow_natCast]
    exact inv_anti₀ (by positivity) hquotient

section

variable {m d : Nat} {e s t : Int}

theorem pos_of_contains (hm : 0 < m) (h : (Interval.around m e).Contains (d * 10 ^ t)) : 0 < d := by
  rcases Nat.eq_zero_or_pos d with rfl | hd
  · have hlow := h.1
    rw [Nat.cast_zero, zero_mul] at hlow
    exact absurd hlow (not_le.mpr (lowEnd_pos hm))
  · exact hd

/-- No power of ten above that of the shortest decimal has a multiple in the interval. -/
theorem not_contains_above (hm : 0 < m) (hs : (shortest m e).exponent < s) :
    ¬ (Interval.around m e).Contains (d * 10 ^ s) := by
  intro h
  rcases le_or_gt s (decimalAbove (e + m.log2 + 1)) with hstart | hstart
  · rw [shortest_eq hm] at hs
    have hnone := Interval.search_skips hs hstart
    have hfalse := Interval.not_has_of_multiple (d := d) (Interval.around_proper hm e) hnone
    rw [Interval.has_iff_contains.mpr h] at hfalse
    cases hfalse
  · have hbits : (m : ℚ) + 1 ≤ 2 ^ (m.log2 + 1) := by exact_mod_cast Nat.lt_log2_self
    have hlarge : (1 : ℚ) ≤ d := by exact_mod_cast pos_of_contains hm h
    have hunit : (0 : ℚ) < 2 ^ e := by positivity
    have hhigh := h.2.1
    rw [highEnd_around] at hhigh
    have hcontra : (d : ℚ) * 10 ^ s < d * 10 ^ s := calc
      (d : ℚ) * 10 ^ s ≤ (m + 1 / 2) * 2 ^ e := hhigh
      _ < (m + 1) * 2 ^ e := by linarith
      _ ≤ 2 ^ (m.log2 + 1) * 2 ^ e := by gcongr
      _ = 2 ^ (e + m.log2 + 1) := by
        rw [← zpow_natCast, ← zpow_add₀ two_ne_zero]
        congr 1
        push_cast
        omega
      _ ≤ 10 ^ decimalAbove (e + m.log2 + 1) := two_pow_le_decimalAbove _
      _ ≤ 10 ^ s := zpow_le_zpow_right₀ (by norm_num) hstart.le
      _ ≤ d * 10 ^ s := le_mul_of_one_le_left (by positivity) hlarge
    exact lt_irrefl _ hcontra

theorem shortest_contains (hm : 0 < m) (e : Int) :
    (Interval.around m e).Contains ((shortest m e).digits * 10 ^ (shortest m e).exponent) :=
  Interval.has_iff_contains.mp (shortest_has hm e)

theorem shortest_last (hm : 0 < m) (e : Int) : (shortest m e).digits % 10 ≠ 0 := by
  intro hzero
  have hcontains := shortest_contains hm e
  have hsplit := Nat.div_add_mod (shortest m e).digits 10
  rw [hzero, Nat.add_zero] at hsplit
  refine not_contains_above hm (Int.lt_succ (shortest m e).exponent)
    (d := (shortest m e).digits / 10) ?_
  rw [← hsplit, Nat.cast_mul, Nat.cast_ofNat, mul_comm (10 : ℚ), mul_assoc] at hcontains
  rwa [zpow_add_one₀ (by norm_num), mul_comm ((10 : ℚ) ^ _)]

theorem ten_pow_le_of_toDigits {n : Nat} (hn : 0 < n) :
    10 ^ ((Nat.toDigits 10 n).length - 1) ≤ n := by
  rcases Nat.eq_zero_or_pos ((Nat.toDigits 10 n).length - 1) with hone | hmore
  · rw [hone]
    exact hn
  · rw [← Nat.not_lt, ← Nat.length_toDigits_le_iff (by decide) hmore]
    omega

/-- A decimal with fewer digits is smaller, and then a power of ten lies between the two. -/
theorem shortest_length_le (hm : 0 < m)
    (h : (Interval.around m e).Contains (d * 10 ^ t)) :
    (shortest m e).chars.length ≤ (Nat.digits 10 d).length := by
  have hcontains := shortest_contains hm e
  have hleast := ten_pow_le_of_toDigits (pos_of_contains hm hcontains)
  rw [← Decimal.chars] at hleast
  have ht : t ≤ (shortest m e).exponent := by
    by_contra hgt
    exact not_contains_above hm (not_le.mp hgt) h
  by_contra hfew
  generalize hlength : (shortest m e).chars.length - 1 = k at hleast
  have hshort : (d : ℚ) ≤ 10 ^ k := by
    exact_mod_cast (Nat.lt_base_pow_length_digits (by decide)).le.trans
      (Nat.pow_le_pow_right (by decide) (by omega))
  have hpower :
      (Interval.around m e).Contains ((1 : Nat) * 10 ^ (k + (shortest m e).exponent)) := by
    rw [Nat.cast_one, one_mul, zpow_add₀ (by norm_num), zpow_natCast]
    refine h.between hcontains ?_ ?_
    · gcongr
      norm_num
    · gcongr
      exact_mod_cast hleast
  have hsome : 0 < (Nat.digits 10 d).length :=
    List.length_pos_of_ne_nil (Nat.digits_ne_nil_iff_ne_zero.mpr (pos_of_contains hm h).ne')
  exact not_contains_above hm (by omega) hpower

theorem shortest_whole (hm : 0 < m) {k : Nat} (h : (m : ℚ) * 2 ^ e = k) :
    0 ≤ (shortest m e).exponent := by
  rcases le_or_gt 0 e with he | he
  · refine shortest_exponent_nonneg hm (by omega) ?_
    rw [show (-e).toNat = 0 by omega]
    exact Nat.one_dvd m
  · obtain ⟨j, rfl⟩ : ∃ j : Nat, e = -j := ⟨(-e).toNat, by omega⟩
    have hproduct : m = k * 2 ^ j := by
      rw [zpow_neg, zpow_natCast, mul_inv_eq_iff_eq_mul₀ (by positivity)] at h
      exact_mod_cast h
    have hk : 0 < k := Nat.pos_of_ne_zero fun hzero => by simp [hproduct, hzero] at hm
    have hlog : j ≤ m.log2 := by
      rw [Nat.le_log2 hm.ne', hproduct]
      exact Nat.le_mul_of_pos_left _ hk
    refine shortest_exponent_nonneg hm (by omega) ?_
    rw [neg_neg, Int.toNat_natCast, hproduct]
    exact Nat.dvd_mul_left _ _

end

section

variable {x y : Float} {negative : Bool} {m : Nat} {e : Int}

theorem sign_of_shape (hx : shape x = .finite negative m e) :
    negative = x.toBits.toNat.testBit 63 := by
  have hbits := x.toBits.toNat_lt
  rw [shape, shapeOfBits] at hx
  have hnegative : decide (Nat.pow 2 63 ≤ x.toBits.toNat) = negative := by
    split at hx
    · split at hx <;> cases hx
    · split at hx <;> exact (Shape.finite.inj hx).1
  rw [← hnegative, Nat.testBit_eq_decide_div_mod_eq, decide_eq_decide,
    show Nat.pow 2 63 = 9223372036854775808 by decide]
  omega

theorem eq_of_infinite (hx : shape x = .infinite negative) (hy : shape y = .infinite negative) :
    x = y := by
  have hbits : ∀ {z : Float}, shape z = .infinite negative →
      z.toBits.toNat = (if negative then Nat.pow 2 63 else 0) + 2047 * Nat.pow 2 52 := by
    intro z hz
    have hlt := z.toBits.toNat_lt
    rw [shape, shapeOfBits] at hz
    split at hz
    · split at hz
      · obtain rfl := Shape.infinite.inj hz
        have h63 : Nat.pow 2 63 = 9223372036854775808 := by decide
        simp only [pow_values.1, h63] at *
        split <;> simp_all <;> omega
      · cases hz
    · split at hz <;> cases hz
  exact eq_of_toBits_eq ((hbits hx).trans (hbits hy).symm)

theorem display_eq (hx : shape x = .finite negative m e) :
    display x = signed negative (shortest m e).positional := by
  rw [display, hx]

/-- The text of a finite double is a numeral for a number that rounds to the double, with no more
digits than any other such number has. -/
theorem exists_display (hx : shape x = .finite negative m e) :
    ∃ n : Numeral, display x = n.text ∧ n.negative = negative ∧ Rounds negative n.magnitude x ∧
      (∀ b (d : Nat) (t : Int), Rounds b (d * 10 ^ t) x →
        n.significant ≤ (Nat.digits 10 d).length) ∧
      ∀ k : Nat, (m : ℚ) * 2 ^ e = k → n.fraction = [] := by
  rcases Nat.eq_zero_or_pos m with rfl | hm
  · obtain ⟨n, hsign, htext, hmagnitude, hsignificant, hfraction⟩ := exists_numeral_zero negative
    refine ⟨n, (display_eq hx).trans htext.symm, hsign, ?_, ?_, fun _ _ => hfraction⟩
    · have hunit : (0 : ℚ) < 2 ^ e := by positivity
      rw [hmagnitude]
      refine rounds_of_contains hx le_rfl ⟨(lowEnd_zero e).le, ?_, fun hopen => ?_⟩
      · rw [highEnd_around]
        positivity
      · cases hopen
    · rw [hsignificant]
      exact fun _ _ _ _ => Nat.zero_le _
  · obtain ⟨n, hsign, hwrites⟩ := Decimal.exists_numeral (shortest_last hm e) negative
    have hcontains := shortest_contains hm e
    refine ⟨n, ?_, hsign, ?_, ?_, fun k hk => hwrites.whole (shortest_whole hm hk)⟩
    · rw [display_eq hx, Numeral.text, hsign, hwrites.chars]
    · rw [hwrites.magnitude]
      exact rounds_of_contains hx (by positivity) hcontains
    · intro b d t hrounds
      obtain rfl : b = negative := by
        obtain ⟨hshape⟩ := hrounds
        exact (Shape.finite.inj (hshape.symm.trans hx)).1
      rw [hwrites.significant]
      exact shortest_length_le hm (contains_of_rounds hx (by positivity) hrounds)

theorem Numeral.text_ne_infinite (n : Numeral) (b : Bool) : n.text ≠ signed b ['i', 'n', 'f'] := by
  intro h
  obtain ⟨-, hbody⟩ := signed_inj (n.head_unsigned (by decide)) (by simp) h
  exact n.head_unsigned (c := 'i') (by decide) 'i' (by rw [hbody]; rfl) rfl

theorem display_injective (hx : shape x ≠ .nan) (hy : shape y ≠ .nan) (h : display x = display y) :
    x = y := by
  have hinfinite : ∀ {z : Float} {b : Bool}, shape z = .infinite b →
      display z = signed b ['i', 'n', 'f'] := fun hz => by rw [display, hz]
  cases hsx : shape x with
  | nan => exact absurd hsx hx
  | infinite b =>
    rw [hinfinite hsx] at h
    cases hsy : shape y with
    | nan => exact absurd hsy hy
    | infinite c =>
      rw [hinfinite hsy] at h
      obtain ⟨rfl, -⟩ := signed_inj (by simp) (by simp) h
      exact eq_of_infinite hsx hsy
    | finite c n f =>
      obtain ⟨k, htext, -⟩ := exists_display hsy
      exact absurd (htext.symm.trans h.symm) (k.text_ne_infinite b)
  | finite b m e =>
    obtain ⟨n, htext, hsign, hrounds, -⟩ := exists_display hsx
    cases hsy : shape y with
    | nan => exact absurd hsy hy
    | infinite c =>
      rw [hinfinite hsy] at h
      exact absurd (htext.symm.trans h) (n.text_ne_infinite c)
    | finite c k f =>
      obtain ⟨n', htext', hsign', hrounds', -⟩ := exists_display hsy
      obtain rfl : n = n' := Numeral.text_injective (htext.symm.trans (h.trans htext'))
      obtain rfl : b = c := hsign.symm.trans hsign'
      exact hrounds.unique hrounds'

/-- A finite double is displayed as the shortest numeral that rounds to it, with its sign, and
without a point if it is whole. Doubles that are displayed alike are the same one. -/
theorem display_exact :
    (∀ x w, value? x = some w → ∃ n : Numeral, display x = n.text ∧
      n.negative = x.toBits.toNat.testBit 63 ∧ Rounds n.negative n.magnitude x ∧
      (∀ b (d : Nat) (t : Int), Rounds b (d * 10 ^ t) x →
        n.significant ≤ (Nat.digits 10 d).length) ∧
      ((∃ k : ℤ, w = k) → '.' ∉ (display x).toList)) ∧
    ∀ x y, shape x ≠ .nan → shape y ≠ .nan → x ≠ y → display x ≠ display y := by
  constructor
  · intro x w hw
    obtain ⟨negative, m, e, hx, rfl⟩ := value_eq_some hw
    obtain ⟨n, htext, hsign, hrounds, hshortest, hwhole⟩ := exists_display hx
    refine ⟨n, htext, hsign.trans (sign_of_shape hx), hsign ▸ hrounds, hshortest, ?_⟩
    rintro ⟨k, hk⟩
    rw [htext]
    refine Numeral.point_not_mem_text (hwhole k.natAbs ?_)
    have habs : |signedBy negative ((m : ℚ) * 2 ^ e)| = m * 2 ^ e := by
      have hpos : (0 : ℚ) ≤ m * 2 ^ e := by positivity
      cases negative with
      | false => exact abs_of_nonneg hpos
      | true => exact (abs_neg _).trans (abs_of_nonneg hpos)
    rw [← habs, hk, Nat.cast_natAbs, Int.cast_abs]
  · exact fun x y hx hy hne h => hne (display_injective hx hy h)

/-- Below `2 ^ -44` the doubles lie twice as close as above it. -/
theorem display_exact_power_of_two :
    (∃ n : Numeral, display (Float.ofBits 0x3D30000000000000) = n.text ∧
      n.negative = (Float.ofBits 0x3D30000000000000).toBits.toNat.testBit 63 ∧
      Rounds n.negative n.magnitude (Float.ofBits 0x3D30000000000000) ∧
      (∀ b (d : Nat) (t : Int), Rounds b (d * 10 ^ t) (Float.ofBits 0x3D30000000000000) →
        n.significant ≤ (Nat.digits 10 d).length) ∧
      ((∃ k : ℤ, signedBy false ((4503599627370496 : Nat) * 2 ^ (-96 : Int)) = k) →
        '.' ∉ (display (Float.ofBits 0x3D30000000000000)).toList)) ∧
    display (Float.ofBits 0x3D30000000000000) ≠ display (Float.ofBits 0x3D2FFFFFFFFFFFFF) := by
  have hx : shape (Float.ofBits 0x3D30000000000000) = .finite false 4503599627370496 (-96) := by
    decide +kernel
  have hy : shape (Float.ofBits 0x3D2FFFFFFFFFFFFF) = .finite false 9007199254740991 (-97) := by
    decide +kernel
  refine ⟨display_exact.1 _ _ ?_, display_exact.2 _ _ ?_ ?_ ?_⟩
  · simp only [value?, hx]
  · rw [hx]
    exact Shape.noConfusion
  · rw [hy]
    exact Shape.noConfusion
  · intro heq
    rw [heq, hy] at hx
    cases hx

example : display (Float.ofBits 0x3D30000000000000) = "0.00000000000005684341886080802" := by
  decide +kernel

end

end Lox.Number
