import LiveMarkup.Decimal.Shortest
import Mathlib.Algebra.Order.Field.Basic
import Mathlib.Data.Nat.Digits.Lemmas
import Mathlib.Data.Rat.Cast.Order

set_option autoImplicit false

/-!
Decimal digits, the leading one first, and the number that they write. Every number but zero has
digits that neither begin nor, without their trailing zeros, end in zero.
-/

namespace LiveMarkup.Decimal

variable {n k : Nat} {ds es : List Nat} {s : Scientific}

/-- The number that decimal digits write, the last one being the units. -/
def numberOf (ds : List Nat) : Nat := Nat.ofDigits 10 ds.reverse

@[simp] theorem numberOf_singleton (d : Nat) : numberOf [d] = d := Nat.ofDigits_singleton ..

theorem numberOf_append (ds es : List Nat) :
    numberOf (ds ++ es) = numberOf ds * 10 ^ es.length + numberOf es := by
  rw [numberOf, List.reverse_append, Nat.ofDigits_append, List.length_reverse]
  unfold numberOf
  ring

@[simp] theorem numberOf_replicate_zero (k : Nat) : numberOf (List.replicate k 0) = 0 := by
  rw [numberOf, List.reverse_replicate, Nat.ofDigits_replicate_zero]

theorem numberOf_zeros_append (k : Nat) (ds : List Nat) :
    numberOf (List.replicate k 0 ++ ds) = numberOf ds := by
  rw [numberOf_append, numberOf_replicate_zero, Nat.zero_mul, Nat.zero_add]

theorem numberOf_append_zeros (ds : List Nat) (k : Nat) :
    numberOf (ds ++ List.replicate k 0) = numberOf ds * 10 ^ k := by
  rw [numberOf_append, numberOf_replicate_zero, List.length_replicate, Nat.add_zero]

theorem numberOf_lt (h : ∀ d ∈ ds, d < 10) : numberOf ds < 10 ^ ds.length := by
  have := Nat.ofDigits_lt_base_pow_length (b := 10) (l := ds.reverse) (by decide)
    fun d hd => h d (List.mem_reverse.1 hd)
  rwa [List.length_reverse] at this

/-! ## The digits of a number -/

theorem toNat_digitChar_sub {d : Nat} (h : d < 10) : d.digitChar.toNat - '0'.toNat = d := by
  interval_cases d <;> rfl

theorem digitsOf_eq (h : n ≠ 0) : digitsOf n = (Nat.digits 10 n).reverse := by
  induction n using Nat.strongRecOn with
  | ind n ih =>
    rw [digitsOf, Nat.toDigits_eq_if (by decide), Nat.digits_def' (by decide) (by omega)]
    split_ifs with hlt
    · rw [Nat.div_eq_of_lt hlt, Nat.mod_eq_of_lt hlt]
      rw [List.map_singleton, toNat_digitChar_sub hlt, Nat.digits_zero, List.reverse_singleton]
    · rw [List.map_append, List.reverse_cons, ← ih (n / 10) (by omega) (by omega), digitsOf,
        List.map_singleton, toNat_digitChar_sub (Nat.mod_lt n (by decide))]

theorem numberOf_digitsOf (h : n ≠ 0) : numberOf (digitsOf n) = n := by
  rw [digitsOf_eq h, numberOf, List.reverse_reverse, Nat.ofDigits_digits]

theorem lt_ten_of_mem_digitsOf (h : n ≠ 0) {d : Nat} (hd : d ∈ digitsOf n) : d < 10 := by
  rw [digitsOf_eq h, List.mem_reverse] at hd
  exact Nat.digits_lt_base (by decide) hd

theorem exists_digitsOf_eq_cons (h : n ≠ 0) : ∃ d ds, digitsOf n = d :: ds ∧ d ≠ 0 := by
  have hne : Nat.digits 10 n ≠ [] := Nat.digits_ne_nil_iff_ne_zero.2 h
  refine ⟨(Nat.digits 10 n).getLast hne, (Nat.digits 10 n).dropLast.reverse, ?_,
    Nat.getLast_digit_ne_zero 10 h⟩
  rw [digitsOf_eq h]
  conv_lhs => rw [← List.dropLast_append_getLast hne]
  rw [List.reverse_append, List.reverse_singleton, List.singleton_append]

theorem exists_eq_dropTrailingZeros_append (ds : List Nat) :
    ∃ k, ds = dropTrailingZeros ds ++ List.replicate k 0 := by
  have hzeros : ds.reverse.takeWhile (· == 0) =
      List.replicate (ds.reverse.takeWhile (· == 0)).length 0 :=
    List.eq_replicate_iff.2
      ⟨rfl, fun d hd => by simpa using List.all_eq_true.1 List.all_takeWhile d hd⟩
  refine ⟨(ds.reverse.takeWhile (· == 0)).length, ?_⟩
  rw [← List.reverse_replicate, ← hzeros, dropTrailingZeros, ← List.reverse_append,
    List.takeWhile_append_dropWhile, List.reverse_reverse]

theorem dropTrailingZeros_ne_append_zero (ds es : List Nat) : dropTrailingZeros ds ≠ es ++ [0] := by
  intro h
  have hhead : ds.reverse.dropWhile (· == 0) = 0 :: es.reverse := by
    rw [← List.reverse_reverse (List.dropWhile _ _), ← dropTrailingZeros, h]
    simp
  have := List.head?_dropWhile_not (fun d : Nat => d == 0) ds.reverse
  rw [hhead] at this
  simp at this

theorem length_dropTrailingZeros_le (h : n ≠ 0) (hk : 0 < k) (hle : n ≤ 10 ^ k) :
    (dropTrailingZeros (digitsOf n)).length ≤ k := by
  rcases hle.lt_or_eq with hlt | rfl
  · obtain ⟨j, hj⟩ := exists_eq_dropTrailingZeros_append (digitsOf n)
    have hlength : (digitsOf n).length ≤ k := by
      rw [digitsOf, List.length_map]
      exact (Nat.length_toDigits_le_iff (by decide) hk).2 hlt
    have := congrArg List.length hj
    rw [List.length_append] at this
    omega
  · have hdigits : digitsOf (10 ^ k) = 1 :: List.replicate k 0 := by
      have := Nat.digits_base_pow_mul (b := 10) (k := k) (m := 1) (by decide) (by decide)
      rw [Nat.mul_one] at this
      rw [digitsOf_eq h, this]
      simp
    have hone : dropTrailingZeros (1 :: List.replicate k 0) = [1] := by
      rw [dropTrailingZeros, List.reverse_cons, List.reverse_replicate,
        List.dropWhile_append_of_pos (by simp)]
      rfl
    rw [hdigits, hone]
    exact hk

/-! ## Numbers by their digits -/

/-- The digits of a number other than zero: they begin with no zero and end in none. -/
structure Scientific.Normal (s : Scientific) : Prop where
  digit : ∀ d ∈ s.digits, d < 10
  leading : ∃ d ds, s.digits = d :: ds ∧ d ≠ 0
  trailing : ∀ ds, s.digits ≠ ds ++ [0]

/-- The number `d₁.d₂…dₙ * 10 ^ exponent`. -/
def Scientific.value (s : Scientific) : ℚ :=
  numberOf s.digits * 10 ^ (s.exponent + 1 - s.digits.length)

namespace Scientific

theorem Normal.ne_nil (h : s.Normal) : s.digits ≠ [] := by
  obtain ⟨d, ds, hd, -⟩ := h.leading
  rw [hd]
  exact List.cons_ne_nil d ds

theorem Normal.pow_le (h : s.Normal) : 10 ^ (s.digits.length - 1) ≤ numberOf s.digits := by
  obtain ⟨d, ds, hd, hpos⟩ := h.leading
  rw [hd, ← List.singleton_append, numberOf_append, numberOf_singleton]
  calc 10 ^ (([d] ++ ds).length - 1) = 1 * 10 ^ ds.length := by simp
    _ ≤ d * 10 ^ ds.length := Nat.mul_le_mul_right _ (Nat.pos_of_ne_zero hpos)
    _ ≤ d * 10 ^ ds.length + numberOf ds := Nat.le_add_right _ _

theorem Normal.value_pos (h : s.Normal) : 0 < s.value :=
  mul_pos (by exact_mod_cast (Nat.pow_pos (by decide)).trans_le h.pow_le)
    (zpow_pos (by norm_num) _)

theorem Normal.value_lt (h : s.Normal) : s.value < 10 ^ (s.exponent + 1) := by
  have hlt : (numberOf s.digits : ℚ) < 10 ^ s.digits.length := by exact_mod_cast numberOf_lt h.digit
  calc s.value < 10 ^ s.digits.length * 10 ^ (s.exponent + 1 - s.digits.length) :=
        mul_lt_mul_of_pos_right hlt (zpow_pos (by norm_num) _)
    _ = 10 ^ (s.exponent + 1) := by
        rw [← zpow_natCast, ← zpow_add₀ (by norm_num)]
        congr 1
        ring

/-- The digits of a number other than zero, in units of `10 ^ grid`. -/
theorem normal_dropTrailingZeros (h : n ≠ 0) (exponent : Int) :
    Normal ⟨dropTrailingZeros (digitsOf n), exponent⟩ := by
  obtain ⟨k, hk⟩ := exists_eq_dropTrailingZeros_append (digitsOf n)
  refine ⟨fun d hd => lt_ten_of_mem_digitsOf h ?_, ?_, dropTrailingZeros_ne_append_zero _⟩
  · rw [hk]
    exact List.mem_append_left _ hd
  · obtain ⟨d, ds, hd, hpos⟩ := exists_digitsOf_eq_cons h
    rw [hd] at hk ⊢
    cases hdrop : dropTrailingZeros (d :: ds) with
    | nil =>
      -- then every digit would be zero, the leading one too
      rw [hdrop, List.nil_append] at hk
      exact absurd (List.eq_of_mem_replicate (hk ▸ List.mem_cons_self)) hpos
    | cons e es =>
      rw [hdrop, List.cons_append] at hk
      exact ⟨e, es, rfl, (List.head_eq_of_cons_eq hk) ▸ hpos⟩

theorem value_append_zeros (ds : List Nat) (k : Nat) (exponent : Int) :
    value ⟨ds ++ List.replicate k 0, exponent⟩ = value ⟨ds, exponent⟩ := by
  simp only [value, numberOf_append_zeros, List.length_append, List.length_replicate]
  push_cast
  rw [mul_assoc, ← zpow_natCast, ← zpow_add₀ (by norm_num)]
  congr 2
  ring

theorem value_dropTrailingZeros (h : n ≠ 0) (grid : Int) :
    value ⟨dropTrailingZeros (digitsOf n), grid + (digitsOf n).length - 1⟩ = n * 10 ^ grid := by
  obtain ⟨k, hk⟩ := exists_eq_dropTrailingZeros_append (digitsOf n)
  rw [← value_append_zeros _ k, ← hk, value, numberOf_digitsOf h]
  congr 2
  ring

end Scientific

end LiveMarkup.Decimal
