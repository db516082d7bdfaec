import Lox.Number
import Lox.Proofs.Number.Rounding
import Lox.Text

/-!
# Shortest decimals read back

The decimal that is found for a double lies in the interval around it, since the search ends at the
latest at a power of ten of which the double is a multiple. The double nearest to a natural number
is itself one, so its decimal has no digits behind the point, and reading it gives the double again.
-/

namespace Lox.Number

namespace Interval

structure IsProper (i : Interval) : Prop where
  low : i.low < i.middle
  high : i.middle < i.high

def Hits (i : Interval) (t : Int) : Prop := i.step t ∣ i.middle * i.scale t

theorem scale_pos (i : Interval) (t : Int) : 0 < i.scale t :=
  Nat.mul_pos (two_pow_pos _) (Nat.pow_pos (by decide))

theorem has_middle {i : Interval} {t : Int} (hi : i.IsProper) (ht : i.Hits t) :
    i.has (i.middle * i.scale t / i.step t) t = true := by
  have hlow := Nat.mul_lt_mul_of_pos_right hi.low (i.scale_pos t)
  have hhigh := Nat.mul_lt_mul_of_pos_right hi.high (i.scale_pos t)
  rw [has_iff, Nat.div_mul_cancel ht]
  omega

theorem has_of_multiple {i : Interval} {t : Int} {d : Nat} (h : i.multiple? t = some d) :
    i.has d t = true := by
  unfold multiple? at h
  dsimp only at h
  split at h
  · cases h
  · next hbelow _ => cases h; exact hbelow
  · next _ habove => cases h; exact habove
  · next hbelow habove =>
    split at h
    · cases h
      exact hbelow
    · cases h
      exact habove

theorem multiple_of_hits {i : Interval} {t : Int} (hi : i.IsProper) (ht : i.Hits t) :
    i.multiple? t ≠ none := by
  have hmiddle := has_middle hi ht
  intro h
  unfold multiple? at h
  dsimp only at h
  rw [hmiddle] at h
  split at h
  · contradiction
  · cases h
  · contradiction
  · split at h <;> cases h

theorem search_has {i : Interval} (hi : i.IsProper) {n : Nat} {t : Int} (h : i.Hits (t - n)) :
    i.has (i.search n t).digits (i.search n t).exponent = true := by
  induction n generalizing t with
  | zero =>
    rw [Int.natCast_zero, Int.sub_zero] at h
    exact has_middle hi h
  | succ n ih =>
    rw [search]
    split
    · next d hd => exact has_of_multiple hd
    · apply ih
      rw [show t - 1 - (n : Int) = t - (n + 1 : Nat) by omega]
      exact h

/-- The search goes no further down than to a power of ten that divides the middle. -/
theorem le_search_exponent {i : Interval} (hi : i.IsProper) {least : Int} (h : i.Hits least)
    {n : Nat} {t : Int} (hstart : least ≤ t) (hend : t - n ≤ least) :
    least ≤ (i.search n t).exponent := by
  induction n generalizing t with
  | zero => exact hstart
  | succ n ih =>
    rw [search]
    split
    · exact hstart
    · next hnone =>
      have hne : t ≠ least := by
        rintro rfl
        exact multiple_of_hits hi h hnone
      exact ih (by omega) (by omega)

theorem around_proper {m : Nat} (hm : 0 < m) (e : Int) : (around m e).IsProper := by
  constructor
  · simp only [around]
    split <;> omega
  · simp only [around]
    omega

/-- A double is a multiple of every power of ten, up to one, that has no more twos in it. -/
theorem around_hits {m : Nat} {e t : Int} (ht : t ≤ 0) (h : Nat.pow 2 (t - e).toNat ∣ m) :
    (around m e).Hits t := by
  obtain ⟨c, rfl⟩ := h
  generalize hm : Nat.pow 2 (t - e).toNat * c = m
  have hten : Nat.pow 10 (-t).toNat = Nat.pow 2 (-t).toNat * Nat.pow 5 (-t).toNat :=
    Nat.mul_pow 2 5 _
  have hstep : (around m e).step t = Nat.pow 2 (-(e - 2)).toNat := by
    simp only [step, around, show t.toNat = 0 by omega]
    exact Nat.one_mul _
  have hwhole : (around m e).middle * (around m e).scale t =
      Nat.pow 2 2 * Nat.pow 2 (t - e).toNat * Nat.pow 2 (-t).toNat *
        (c * Nat.pow 2 (e - 2).toNat * Nat.pow 5 (-t).toNat) := by
    simp only [scale, around, hten, ← hm]
    rw [show Nat.pow 2 2 = 4 by decide]
    ring
  rw [Hits, hstep, hwhole, two_pow_add, two_pow_add]
  apply Nat.dvd_mul_right_of_dvd
  exact Nat.pow_dvd_pow 2 (by omega)

end Interval

theorem le_decimalAbove {e k : Int} (h : e < k) : min e 0 ≤ decimalAbove k := by
  unfold decimalAbove
  split <;> omega

theorem shortest_eq {m : Nat} (hm : 0 < m) (e : Int) :
    shortest m e = (Interval.around m e).search
      (decimalAbove (e + m.log2 + 1) - min e 0).toNat (decimalAbove (e + m.log2 + 1)) := by
  rw [shortest, if_neg (by omega)]

theorem shortest_has {m : Nat} (hm : 0 < m) (e : Int) :
    (Interval.around m e).has (shortest m e).digits (shortest m e).exponent = true := by
  have hstart := le_decimalAbove (show e < e + m.log2 + 1 by omega)
  rw [shortest_eq hm]
  apply Interval.search_has (Interval.around_proper hm e)
  rw [Int.toNat_of_nonneg (by omega), Int.sub_sub_self]
  apply Interval.around_hits (by omega)
  rw [show (min e 0 - e).toNat = 0 by omega]
  exact Nat.one_dvd m

theorem shortest_exponent_nonneg {m : Nat} (hm : 0 < m) {e : Int} (he : 0 ≤ e + m.log2 + 1)
    (h : Nat.pow 2 (-e).toNat ∣ m) : 0 ≤ (shortest m e).exponent := by
  have hstart : 0 ≤ decimalAbove (e + m.log2 + 1) := by
    rw [decimalAbove, if_pos he]
    omega
  rw [shortest_eq hm]
  apply Interval.le_search_exponent (Interval.around_proper hm e) _ hstart (by omega)
  apply Interval.around_hits (Int.le_refl 0)
  rw [Int.zero_sub]
  exact h

theorem digitsValue_eq (digits : List Char) : digitsValue digits = Nat.ofDigitChars 10 digits 0 :=
  rfl

theorem digitsValue_toDigits (n : Nat) : digitsValue (Nat.toDigits 10 n) = n :=
  Nat.ofDigitChars_ten_toDigits

theorem digitsValue_positional {d : Decimal} (h : 0 ≤ d.exponent) :
    digitsValue d.positional = d.digits * Nat.pow 10 d.exponent.toNat := by
  rw [Decimal.positional, if_pos h, digitsValue_eq, Nat.ofDigitChars_append, Decimal.chars,
    Nat.ofDigitChars_ten_toDigits, Nat.ofDigitChars_replicate_zero, Nat.mul_comm]
  rfl

theorem isDigit_toDigits {n : Nat} {c : Char} (h : c ∈ Nat.toDigits 10 n) :
    Text.isDigit c = true := by
  have hdigit := Nat.isDigit_of_mem_toDigits (by decide) (by decide) h
  rw [Text.isDigit]
  simpa [Char.isDigit, Char.le_def] using hdigit

theorem isDigit_positional {d : Decimal} (h : 0 ≤ d.exponent) :
    ∀ c ∈ d.positional, Text.isDigit c = true := by
  intro c hc
  rw [Decimal.positional, if_pos h, List.mem_append] at hc
  rcases hc with hc | hc
  · exact isDigit_toDigits hc
  · rw [List.eq_of_mem_replicate hc]
    rfl

theorem positional_ne_nil {d : Decimal} (h : 0 ≤ d.exponent) : d.positional ≠ [] := by
  rw [Decimal.positional, if_pos h]
  simp [Decimal.chars, Nat.toDigits_ne_nil]

/-- The double that a natural number is read as is written as a natural number that is read as the
same double. -/
theorem display_ofNat {n : Nat} {x : Float} (h : ofNat? n = some x) :
    ∃ digits, display x = String.ofList digits ∧ digits ≠ [] ∧
      (∀ c ∈ digits, Text.isDigit c = true) ∧ ofNat? (digitsValue digits) = some x := by
  by_cases hn : n = 0
  · subst hn
    cases h
    exact ⟨['0'], by decide +kernel, by decide, List.all_eq_true.mp (by decide), rfl⟩
  · obtain ⟨m, k, hm, hbits, hshape, hwhole⟩ := shape_of_ofNat hn h
    have hpos : 0 < m := Nat.lt_of_lt_of_le (two_pow_pos 52) hm.low
    have hlog : m.log2 = 52 := (Nat.log2_eq_iff (by omega)).mpr ⟨hm.low, hm.high⟩
    have hexponent : 0 ≤ (shortest m (k - 52)).exponent := by
      apply shortest_exponent_nonneg hpos (by omega)
      rw [show (-((k : Int) - 52)).toNat = 52 - k by omega]
      exact hwhole
    have hbetween := between_of_has hm hexponent (shortest_has hpos (k - 52))
    refine ⟨(shortest m (k - 52)).positional, ?_, positional_ne_nil hexponent,
      isDigit_positional hexponent, ?_⟩
    · rw [display, hshape]
      rfl
    · rw [ofNat_eq_some_iff hn, hbits] at h
      rw [digitsValue_positional hexponent, ofNat_eq_some_iff (hbetween.ne_zero hm),
        hbetween.bitsNearest hm]
      exact h

end Lox.Number
