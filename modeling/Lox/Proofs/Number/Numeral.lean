import Lox.Proofs.Number.Shortest
import Mathlib.Data.List.DropRight

/-!
# Positional numerals

Numbers as they are written: a sign, the digits before the point and those behind it. No zero leads
the digits before the point but a single one, and none ends those behind it. A decimal that is not a
multiple of ten is written as such a numeral, which denotes it and has its digits.
-/

namespace Lox.Number

structure Numeral where
  negative : Bool
  whole : List Char
  fraction : List Char
  whole_digits : ∀ c ∈ whole, Text.isDigit c = true
  whole_head : whole = ['0'] ∨ ∃ c cs, whole = c :: cs ∧ c ≠ '0'
  fraction_digits : ∀ c ∈ fraction, Text.isDigit c = true
  fraction_last : fraction.getLast? ≠ some '0'

def stripZeros (digits : List Char) : List Char :=
  (digits.dropWhile (· = '0')).rdropWhile (· = '0')

theorem signed_inj {a b : Bool} {s t : List Char} (hs : ∀ c ∈ s.head?, c ≠ '-')
    (ht : ∀ c ∈ t.head?, c ≠ '-') (h : signed a s = signed b t) : a = b ∧ s = t := by
  have hchars := String.ofList_injective h
  cases a <;> cases b <;> simp only [Bool.false_eq_true, if_true, if_false] at hchars
  · exact ⟨rfl, hchars⟩
  · exact absurd rfl (hs '-' (by rw [hchars]; rfl))
  · exact absurd rfl (ht '-' (by rw [← hchars]; rfl))
  · exact ⟨rfl, (List.cons.inj hchars).2⟩

namespace Numeral

/-- There is a point only if digits stand behind it. -/
def pointed (fraction : List Char) : List Char := if fraction = [] then [] else '.' :: fraction

def text (n : Numeral) : String := signed n.negative (n.whole ++ pointed n.fraction)

def magnitude (n : Numeral) : ℚ :=
  digitsValue n.whole + digitsValue n.fraction / 10 ^ n.fraction.length

/-- How many digits there are from the first to the last that is not zero. -/
def significant (n : Numeral) : Nat := (stripZeros (n.whole ++ n.fraction)).length

theorem whole_ne_nil (n : Numeral) : n.whole ≠ [] := by
  rcases n.whole_head with h | ⟨c, cs, h, -⟩ <;> rw [h] <;> exact List.cons_ne_nil _ _

theorem pointed_injective : Function.Injective pointed := by
  intro a b h
  unfold pointed at h
  split at h <;> split at h <;> simp_all

theorem takeWhile_unsigned (n : Numeral) :
    (n.whole ++ pointed n.fraction).takeWhile Text.isDigit = n.whole := by
  rw [List.takeWhile_append_of_pos n.whole_digits, pointed]
  split
  · exact List.append_nil _
  · rw [List.takeWhile_cons_of_neg (by decide), List.append_nil]

theorem head_unsigned (n : Numeral) {c : Char} (h : Text.isDigit c = false) :
    ∀ d ∈ (n.whole ++ pointed n.fraction).head?, d ≠ c := by
  obtain ⟨d, ds, hwhole⟩ := List.exists_cons_of_ne_nil n.whole_ne_nil
  have hd := n.whole_digits d (hwhole ▸ List.mem_cons_self)
  rw [hwhole]
  rintro _ ⟨⟩ rfl
  rw [h] at hd
  exact Bool.false_ne_true hd

theorem text_injective : Function.Injective text := by
  intro n k h
  obtain ⟨hsign, hbody⟩ := signed_inj (n.head_unsigned (by decide)) (k.head_unsigned (by decide)) h
  have hwhole : n.whole = k.whole := by
    rw [← n.takeWhile_unsigned, hbody, k.takeWhile_unsigned]
  rw [hwhole] at hbody
  have hfraction := pointed_injective (List.append_cancel_left hbody)
  cases n
  cases k
  simp_all

theorem point_not_mem_text {n : Numeral} (h : n.fraction = []) : '.' ∉ n.text.toList := by
  have hwhole : '.' ∉ n.whole := fun hmem => absurd (n.whole_digits _ hmem) (by decide)
  rw [text, signed, String.toList_ofList, h, pointed, if_pos rfl, List.append_nil]
  split
  · simpa using hwhole
  · exact hwhole

end Numeral

theorem digitsValue_append (a b : List Char) :
    digitsValue (a ++ b) = digitsValue a * 10 ^ b.length + digitsValue b := by
  rw [digitsValue_eq, digitsValue_eq, digitsValue_eq, Nat.ofDigitChars_append,
    Nat.ofDigitChars_eq_ofDigitChars_zero, Nat.mul_comm]

theorem digitsValue_zeros (k : Nat) : digitsValue (List.replicate k '0') = 0 := by
  rw [digitsValue_eq, Nat.ofDigitChars_replicate_zero, Nat.mul_zero]

theorem toDigits_head {n : Nat} (hn : 0 < n) : ∃ c cs, Nat.toDigits 10 n = c :: cs ∧ c ≠ '0' := by
  induction n using Nat.strong_induction_on with
  | _ n ih =>
    rw [Nat.toDigits_eq_if (by decide)]
    split
    · exact ⟨_, [], rfl, fun hzero => by rw [Nat.digitChar_eq_zero] at hzero; omega⟩
    · obtain ⟨c, cs, heq, hc⟩ := ih (n / 10) (by omega) (by omega)
      exact ⟨c, cs ++ [_], by rw [heq]; rfl, hc⟩

theorem toDigits_last {n : Nat} (hn : n % 10 ≠ 0) :
    ∃ cs c, Nat.toDigits 10 n = cs ++ [c] ∧ c ≠ '0' := by
  rw [Nat.toDigits_eq_if (by decide)]
  split
  · next hsmall =>
    refine ⟨[], _, rfl, fun hzero => ?_⟩
    rw [Nat.digitChar_eq_zero] at hzero
    omega
  · refine ⟨_, _, rfl, fun hzero => ?_⟩
    rw [Nat.digitChar_eq_zero] at hzero
    exact hn hzero

/-- Between zeros, digits that neither start nor end with one are found again. -/
theorem stripZeros_padded {n : Nat} (hn : n % 10 ≠ 0) (a b : Nat) :
    stripZeros (List.replicate a '0' ++ Nat.toDigits 10 n ++ List.replicate b '0') =
      Nat.toDigits 10 n := by
  obtain ⟨c, cs, hhead, hc⟩ := @toDigits_head n (by omega)
  obtain ⟨ds, d, hlast, hd⟩ := toDigits_last hn
  have hzeros (k : Nat) : ∀ z ∈ List.replicate k '0', decide (z = '0') = true :=
    fun z hz => decide_eq_true (List.eq_of_mem_replicate hz)
  rw [stripZeros, List.append_assoc, List.dropWhile_append_of_pos (hzeros a), hhead,
    List.cons_append, List.dropWhile_cons_of_neg (by simpa using hc), ← List.cons_append, ← hhead,
    hlast, List.rdropWhile, List.reverse_append, List.reverse_replicate,
    List.dropWhile_append_of_pos (hzeros b), List.reverse_append, List.reverse_singleton,
    List.singleton_append, List.dropWhile_cons_of_neg (by simpa using hd), List.reverse_cons,
    List.reverse_reverse]

structure Writes (n : Numeral) (d : Decimal) : Prop where
  chars : n.whole ++ Numeral.pointed n.fraction = d.positional
  magnitude : n.magnitude = d.digits * 10 ^ d.exponent
  significant : n.significant = d.chars.length
  whole : 0 ≤ d.exponent → n.fraction = []

theorem Numeral.magnitude_eq (n : Numeral) :
    n.magnitude = digitsValue (n.whole ++ n.fraction) / 10 ^ n.fraction.length := by
  rw [digitsValue_append, magnitude]
  push_cast
  field_simp

theorem Writes.of_padded {n : Numeral} {d : Decimal} {a b : Nat} (hd : d.digits % 10 ≠ 0)
    (hchars : n.whole ++ Numeral.pointed n.fraction = d.positional)
    (hpadded : n.whole ++ n.fraction = List.replicate a '0' ++ d.chars ++ List.replicate b '0')
    (hexponent : d.exponent = b - n.fraction.length)
    (hwhole : 0 ≤ d.exponent → n.fraction = []) : Writes n d where
  chars := hchars
  magnitude := by
    rw [n.magnitude_eq, hpadded, digitsValue_append, digitsValue_append, digitsValue_zeros,
      digitsValue_zeros, Decimal.chars, digitsValue_toDigits, hexponent, zpow_sub₀ (by norm_num)]
    push_cast
    rw [List.length_replicate, zpow_natCast, zpow_natCast]
    ring
  significant := by
    rw [Numeral.significant, hpadded, Decimal.chars, stripZeros_padded hd]
  whole := hwhole

section

variable {d : Decimal}

theorem Decimal.exists_whole (hd : d.digits % 10 ≠ 0) (negative : Bool) (h : 0 ≤ d.exponent) :
    ∃ n : Numeral, n.negative = negative ∧ Writes n d := by
  obtain ⟨c, cs, hhead, hc⟩ := @toDigits_head d.digits (by omega)
  have hpadded : d.positional = d.chars ++ List.replicate d.exponent.toNat '0' := by
    rw [positional, if_pos h]
  have hpositional : d.positional = c :: (cs ++ List.replicate d.exponent.toNat '0') := by
    rw [hpadded, chars, hhead, List.cons_append]
  refine ⟨⟨negative, d.positional, [], isDigit_positional h, Or.inr ⟨c, _, hpositional, hc⟩,
    by simp, by simp⟩, rfl, ?_⟩
  refine .of_padded hd (List.append_nil _) (a := 0) (b := d.exponent.toNat) ?_ ?_ fun _ => rfl
  · exact (List.append_nil _).trans hpadded
  · rw [Int.toNat_of_nonneg h]
    exact (Int.sub_zero _).symm

theorem Decimal.exists_split (hd : d.digits % 10 ≠ 0) (negative : Bool) (h : d.exponent < 0)
    (hpoint : 0 < d.point) : ∃ n : Numeral, n.negative = negative ∧ Writes n d := by
  obtain ⟨c, cs, hhead, hc⟩ := @toDigits_head d.digits (by omega)
  obtain ⟨ds, e, hlast, he⟩ := toDigits_last hd
  obtain ⟨k, hk⟩ : ∃ k, d.point.toNat = k + 1 := ⟨d.point.toNat - 1, by omega⟩
  have hlength : d.exponent = k + 1 - d.chars.length := by
    rw [point] at hk hpoint
    omega
  have hdigit : ∀ c ∈ d.chars, Text.isDigit c = true := fun c hc => isDigit_toDigits hc
  have hwhole : d.chars.take (k + 1) = c :: cs.take k := by
    rw [chars, hhead, List.take_succ_cons]
  have hfraction : (d.chars.drop (k + 1)).getLast? = some e := by
    rw [List.getLast?_drop, if_neg (by omega), chars, hlast, List.getLast?_concat]
  have hnil : d.chars.drop (k + 1) ≠ [] := by
    intro hnil
    rw [hnil] at hfraction
    cases hfraction
  refine ⟨⟨negative, d.chars.take (k + 1), d.chars.drop (k + 1),
    fun c hc => hdigit c (List.mem_of_mem_take hc), Or.inr ⟨c, _, hwhole, hc⟩,
    fun c hc => hdigit c (List.mem_of_mem_drop hc), by simpa [hfraction] using he⟩, rfl, ?_⟩
  refine .of_padded hd ?_ (a := 0) (b := 0) ?_ ?_ fun hnonneg => absurd h (by omega)
  · rw [positional, if_neg (by omega), if_pos hpoint, hk, Numeral.pointed, if_neg hnil]
  · rw [List.take_append_drop]
    simp
  · simp only [List.length_drop]
    omega

theorem Decimal.exists_small (hd : d.digits % 10 ≠ 0) (negative : Bool) (h : d.exponent < 0)
    (hpoint : d.point ≤ 0) : ∃ n : Numeral, n.negative = negative ∧ Writes n d := by
  obtain ⟨ds, e, hlast, he⟩ := toDigits_last hd
  refine ⟨⟨negative, ['0'], List.replicate (-d.point).toNat '0' ++ d.chars, by simp; decide,
    Or.inl rfl, ?_, ?_⟩, rfl, .of_padded hd ?_ (a := (-d.point).toNat + 1) (b := 0) ?_ ?_
      fun hnonneg => absurd h (by omega)⟩
  · intro c hc
    rcases List.mem_append.mp hc with hc | hc
    · rw [List.eq_of_mem_replicate hc]
      rfl
    · exact isDigit_toDigits hc
  · rw [chars, hlast, ← List.append_assoc, List.getLast?_concat]
    simpa using he
  · rw [positional, if_neg (by omega), if_neg (by omega), Numeral.pointed, if_neg]
    · rfl
    · simp [chars, Nat.toDigits_ne_nil]
  · simp [List.replicate_succ]
  · rw [point] at hpoint ⊢
    simp only [List.length_append, List.length_replicate]
    omega

/-- A decimal whose digits do not end in a zero is written as a numeral. -/
theorem Decimal.exists_numeral (hd : d.digits % 10 ≠ 0) (negative : Bool) :
    ∃ n : Numeral, n.negative = negative ∧ Writes n d := by
  rcases lt_or_ge d.exponent 0 with h | h
  · rcases lt_or_ge 0 d.point with hpoint | hpoint
    · exact exists_split hd negative h hpoint
    · exact exists_small hd negative h hpoint
  · exact exists_whole hd negative h

theorem exists_numeral_zero (negative : Bool) :
    ∃ n : Numeral, n.negative = negative ∧ n.text = signed negative (Decimal.positional ⟨0, 0⟩) ∧
      n.magnitude = 0 ∧ n.significant = 0 ∧ n.fraction = [] :=
  ⟨⟨negative, ['0'], [], by simp; decide, Or.inl rfl, by simp, by simp⟩, rfl, rfl,
    by simp [Numeral.magnitude, digitsValue], by simp [Numeral.significant, stripZeros], rfl⟩

end

end Lox.Number
