import LiveMarkup.Proofs.Decimal.Rounding
import Mathlib.Tactic.Positivity

set_option autoImplicit false

/-!
The search for decimal digits. A grid of decimal points has one in the interval of a number exactly
when one next to the number is in it, so the first grid with a hit has the fewest digits there are;
and the grid of seventeen digits is finer than any interval is wide, so the search does not fail.
-/

namespace LiveMarkup.Decimal

theorem zpow_eq_div {b : ℚ} (hb : b ≠ 0) (e : Int) : b ^ e = b ^ e.toNat / b ^ (-e).toNat := by
  rw [← zpow_natCast, ← zpow_natCast, ← zpow_sub₀ hb]
  congr 1
  omega

theorem grid_mul_pow (e : Int) (k : Nat) : (10 : ℚ) ^ k * 10 ^ (e - k) = 10 ^ e := by
  rw [← zpow_natCast, ← zpow_add₀ (by norm_num)]
  congr 1
  ring

/-- A point of the grid against a fraction, and in natural numbers. -/
theorem mul_grid_le_iff {a b n : Nat} (hb : 0 < b) (g : Int) :
    (n : ℚ) * 10 ^ g ≤ a / b ↔ n * (b * 10 ^ g.toNat) ≤ a * 10 ^ (-g).toNat := by
  have hb' : (0 : ℚ) < b := by exact_mod_cast hb
  rw [zpow_eq_div (by norm_num), mul_div_assoc', div_le_div_iff₀ (by positivity) hb',
    ← Nat.cast_le (α := ℚ)]
  push_cast
  rw [mul_assoc, mul_comm ((10 : ℚ) ^ g.toNat)]

theorem le_mul_grid_iff {a b n : Nat} (hb : 0 < b) (g : Int) :
    (a / b : ℚ) ≤ n * 10 ^ g ↔ a * 10 ^ (-g).toNat ≤ n * (b * 10 ^ g.toNat) := by
  have hb' : (0 : ℚ) < b := by exact_mod_cast hb
  rw [zpow_eq_div (by norm_num), mul_div_assoc', div_le_div_iff₀ hb' (by positivity),
    ← Nat.cast_le (α := ℚ)]
  push_cast
  rw [mul_assoc (n : ℚ), mul_comm ((10 : ℚ) ^ g.toNat)]

namespace RoundingInterval

variable {i : RoundingInterval} {g : Int} {n : Nat} {q : ℚ}

/-- The value in the middle. -/
def centre (i : RoundingInterval) : ℚ := i.value / i.denominator

/-- The real lies between the ends. -/
def Spans (i : RoundingInterval) (q : ℚ) : Prop :=
  if i.closed then (i.low / i.denominator : ℚ) ≤ q ∧ q ≤ i.high / i.denominator
  else (i.low / i.denominator : ℚ) < q ∧ q < i.high / i.denominator

theorem contains_onGrid_iff (hden : 0 < i.denominator) :
    (i.onGrid g).contains n = true ↔ i.Spans (n * 10 ^ g) := by
  unfold contains Spans onGrid
  simp only [Nat.pow_eq]
  split <;>
    simp only [Bool.and_eq_true, decide_eq_true_eq, ← not_le, mul_grid_le_iff hden,
      le_mul_grid_iff hden]

/-- The integer below the value on a grid. -/
def floor (i : RoundingInterval) (g : Int) : Nat := (i.onGrid g).value / (i.onGrid g).denominator

theorem floor_le (hden : 0 < i.denominator) (g : Int) : (i.floor g : ℚ) * 10 ^ g ≤ i.centre := by
  rw [centre, mul_grid_le_iff hden]
  exact Nat.div_mul_le_self _ _

theorem lt_floor_succ (hden : 0 < i.denominator) (g : Int) :
    i.centre < ((i.floor g + 1 : Nat) : ℚ) * 10 ^ g := by
  rw [← not_le, centre, mul_grid_le_iff hden, not_le]
  exact Nat.lt_mul_of_div_lt (Nat.lt_succ_self _) (Nat.mul_pos hden (Nat.pow_pos (by decide)))

/-- A neighbour of the value is found if it is in the interval, and if none is, nothing is found. -/
theorem nearest?_cases (i : RoundingInterval) (g : Int) :
    (∃ n, (i.onGrid g).nearest? = some n ∧ (n = i.floor g ∨ n = i.floor g + 1) ∧
      (i.onGrid g).contains n = true) ∨
    (i.onGrid g).nearest? = none ∧ (i.onGrid g).contains (i.floor g) = false ∧
      (i.onGrid g).contains (i.floor g + 1) = false := by
  have hfloor : (i.onGrid g).value / (i.onGrid g).denominator = i.floor g := rfl
  simp only [nearest?, hfloor]
  split <;> rename_i h h'
  · split
    · exact .inl ⟨_, rfl, .inl rfl, h⟩
    · exact .inl ⟨_, rfl, .inr rfl, h'⟩
  · exact .inl ⟨_, rfl, .inl rfl, h⟩
  · exact .inl ⟨_, rfl, .inr rfl, h'⟩
  · exact .inr ⟨rfl, h, h'⟩

theorem search_cases (i : RoundingInterval) (count tries : Nat) :
    (∃ k n, count ≤ k ∧ k < count + tries ∧
      i.search count tries = some (n, i.magnitude + 1 - k) ∧
      (i.onGrid (i.magnitude + 1 - k)).nearest? = some n ∧
      ∀ j, count ≤ j → j < k → (i.onGrid (i.magnitude + 1 - j)).nearest? = none) ∨
    i.search count tries = none ∧ ∀ j, count ≤ j → j < count + tries →
      (i.onGrid (i.magnitude + 1 - j)).nearest? = none := by
  induction tries generalizing count with
  | zero => exact .inr ⟨rfl, fun j hj hj' => by omega⟩
  | succ tries ih =>
    rw [search]
    cases hnear : (i.onGrid (i.magnitude + 1 - count)).nearest? with
    | some n =>
      exact .inl ⟨count, n, le_rfl, by omega, rfl, hnear, fun j hj hj' => by omega⟩
    | none =>
      have hj_cases {P : Nat → Prop} (hhere : P count) {k : Nat} 
          (hlater : ∀ j, count + 1 ≤ j → j < k → P j) : ∀ j, count ≤ j → j < k → P j := by
        intro j hj hj'
        rcases hj.eq_or_lt with rfl | hlt
        · exact hhere
        · exact hlater j hlt hj'
      rcases ih (count + 1) with ⟨k, n, hk, hk', hs, hn, hnone⟩ | ⟨hs, hnone⟩
      · exact .inl ⟨k, n, by omega, by omega, hs, hn, hj_cases hnear hnone⟩
      · rw [show count + (tries + 1) = count + 1 + tries by omega]
        exact .inr ⟨hs, hj_cases hnear hnone⟩

theorem length_toDigits_div {a b : Nat} (hb : 0 < b) (h : b ≤ a) :
    ∃ k, (Nat.toDigits 10 (a / b)).length = k + 1 ∧ 10 ^ k * b ≤ a ∧ a < 10 ^ (k + 1) * b := by
  obtain ⟨k, hk⟩ : ∃ k, (Nat.toDigits 10 (a / b)).length = k + 1 :=
    ⟨_, (Nat.succ_pred_eq_of_pos Nat.length_toDigits_pos).symm⟩
  refine ⟨k, hk, ?_, ?_⟩
  · rw [← Nat.le_div_iff_mul_le hb]
    cases k with
    | zero => exact Nat.div_pos h hb
    | succ k =>
      refine Nat.le_of_not_lt fun hlt => ?_
      have := (Nat.length_toDigits_le_iff (by decide) k.succ_pos).2 hlt
      omega
  · rw [← Nat.div_lt_iff_lt_mul hb]
    exact (Nat.length_toDigits_le_iff (by decide) k.succ_pos).1 hk.le

/-- The exponent of the leading digit. -/
theorem magnitude_spec (hden : 0 < i.denominator) (hvalue : 0 < i.value) :
    (10 : ℚ) ^ i.magnitude ≤ i.centre ∧ i.centre < 10 ^ (i.magnitude + 1) := by
  have hden' : (0 : ℚ) < i.denominator := by exact_mod_cast hden
  have hvalue' : (0 : ℚ) < i.value := by exact_mod_cast hvalue
  unfold magnitude centre
  split_ifs with hone
  · obtain ⟨k, hk, hle, hlt⟩ := length_toDigits_div hden hone
    rw [hk, Nat.cast_succ, add_sub_cancel_right, ← Nat.cast_succ, zpow_natCast, zpow_natCast,
      le_div_iff₀ hden', div_lt_iff₀ hden']
    exact ⟨by exact_mod_cast hle, by exact_mod_cast hlt⟩
  · obtain ⟨k, hk, hle, hlt⟩ := length_toDigits_div hvalue (Nat.le_of_not_le hone)
    have hdown (m : Nat) : (10 : ℚ) ^ (-(m : Int)) ≤ i.value / i.denominator ↔
        i.denominator ≤ i.value * 10 ^ m := by
      rw [zpow_neg, zpow_natCast, le_div_iff₀ hden', inv_mul_le_iff₀ (by positivity), mul_comm]
      exact_mod_cast Iff.rfl
    have hup (m : Nat) : (i.value / i.denominator : ℚ) ≤ 10 ^ (-(m : Int)) ↔
        i.value * 10 ^ m ≤ i.denominator := by
      rw [zpow_neg, zpow_natCast, div_le_iff₀ hden', ← div_eq_inv_mul, le_div_iff₀ (by positivity)]
      exact_mod_cast Iff.rfl
    simp only [hk, Nat.add_sub_cancel, Nat.pow_eq]
    split_ifs with hexact
    · -- the value is the power itself
      refine ⟨(hdown k).2 hexact, ((hup k).2 (by rwa [Nat.mul_comm])).trans_lt ?_⟩
      exact zpow_lt_zpow_right₀ (by norm_num) (by omega)
    · refine ⟨?_, ?_⟩
      · rw [show -(k : Int) - 1 = -((k + 1 : Nat) : Int) by push_cast; ring, hdown, Nat.mul_comm]
        exact hlt.le
      · rw [sub_add_cancel, ← not_le, hdown]
        exact hexact

end RoundingInterval

namespace Binary64

variable {x y : Binary64} {g : Int} {n : Nat} {q r : ℚ}

theorem denominator_pos (x : Binary64) : 0 < x.roundingInterval.denominator :=
  Nat.pow_pos (by decide)

/-- Quarters of a unit over the common denominator. -/
theorem quarters_div (x : Binary64) (m : Nat) :
    ((m * Nat.pow 2 (x.scale - 2).toNat : Nat) / x.roundingInterval.denominator : ℚ) =
      m * 2 ^ (x.scale - 2) := by
  have hscale : -(x.scale - 2) = 2 - x.scale := by ring
  simp only [roundingInterval, Nat.pow_eq]
  rw [zpow_eq_div (by norm_num) (x.scale - 2), hscale]
  push_cast
  rw [mul_div_assoc]

theorem modulus_eq_quarters (x : Binary64) :
    x.modulus = 4 * x.significand * 2 ^ (x.scale - 2) := by
  rw [modulus, show x.scale = x.scale - 2 + 2 by ring, zpow_add₀ (by norm_num)]
  ring_nf

theorem centre_roundingInterval (x : Binary64) : x.roundingInterval.centre = x.modulus := by
  refine (x.quarters_div (4 * x.significand)).trans ?_
  rw [modulus_eq_quarters]
  push_cast
  rfl

/-- The number lies between its neighbours on a grid. -/
theorem modulus_between (x : Binary64) (g : Int) :
    (x.roundingInterval.floor g : ℚ) * 10 ^ g ≤ x.modulus ∧
      x.modulus < ((x.roundingInterval.floor g + 1 : Nat) : ℚ) * 10 ^ g := by
  rw [← centre_roundingInterval]
  exact ⟨RoundingInterval.floor_le x.denominator_pos g,
    RoundingInterval.lt_floor_succ x.denominator_pos g⟩

/-- The interval of the search is that of the reals which round to the number. -/
theorem spans_roundingInterval_iff (h : 0 < x.significand) :
    x.roundingInterval.Spans q ↔ x.Covers q := by
  have hgap := x.lowGap_cases
  have hlow : (x.roundingInterval.low / x.roundingInterval.denominator : ℚ) = x.lowEnd := by
    refine (x.quarters_div (4 * x.significand - x.lowGap)).trans ?_
    rw [lowEnd, Nat.cast_sub (by omega)]
    push_cast
    rfl
  have hhigh : (x.roundingInterval.high / x.roundingInterval.denominator : ℚ) = x.highEnd := by
    refine (x.quarters_div (4 * x.significand + 2)).trans ?_
    rw [highEnd]
    push_cast
    rfl
  have hclosed : x.roundingInterval.closed = true ↔ x.significand % 2 = 0 := beq_iff_eq
  simp only [RoundingInterval.Spans, Covers, hlow, hhigh, hclosed]

theorem Covers.between {p : ℚ} (hp : x.Covers p) (hr : x.Covers r) (hpq : p ≤ q) (hqr : q ≤ r) :
    x.Covers q := by
  unfold Covers at *
  split_ifs at *
  · exact ⟨hp.1.trans hpq, hqr.trans hr.2⟩
  · exact ⟨hp.1.trans_le hpq, hqr.trans_lt hr.2⟩

theorem covers_of_lt (hlow : x.lowEnd < q) (hhigh : q < x.highEnd) : x.Covers q := by
  unfold Covers
  split_ifs
  · exact ⟨hlow.le, hhigh.le⟩
  · exact ⟨hlow, hhigh⟩

theorem lowEnd_pos (h : 0 < x.significand) : 0 < x.lowEnd := by
  have hgap := x.lowGap_cases
  refine mul_pos ?_ (zpow_pos (by norm_num) _)
  have : x.lowGap < 4 * x.significand := by omega
  have : (x.lowGap : ℚ) < 4 * x.significand := by exact_mod_cast this
  linarith

theorem ends_modulus (x : Binary64) : x.lowEnd < x.modulus ∧ x.modulus < x.highEnd := by
  have hpos : (0 : ℚ) < 2 ^ (x.scale - 2) := zpow_pos (by norm_num) _
  have hgap : (0 : ℚ) < x.lowGap := by
    have := x.lowGap_cases
    exact_mod_cast (by omega : 0 < x.lowGap)
  rw [modulus_eq_quarters]
  exact ⟨mul_lt_mul_of_pos_right (by linarith) hpos, mul_lt_mul_of_pos_right (by linarith) hpos⟩

theorem covers_modulus (x : Binary64) : x.Covers x.modulus :=
  covers_of_lt x.ends_modulus.1 x.ends_modulus.2

/-- The outcome of the search: `n` on the grid of `k` digits, the first one with a hit. -/
structure Found (x : Binary64) (k n : Nat) : Prop where
  pos : 0 < k
  ne_zero : n ≠ 0
  le : n ≤ 10 ^ k
  shortest : x.shortest = ⟨dropTrailingZeros (digitsOf n),
    x.roundingInterval.magnitude + 1 - k + (digitsOf n).length - 1⟩
  covers : x.Covers (n * 10 ^ (x.roundingInterval.magnitude + 1 - k))
  coarser : ∀ j : Nat, 0 < j → j < k →
    (x.roundingInterval.onGrid (x.roundingInterval.magnitude + 1 - j)).nearest? = none

section Search

variable (h : 0 < x.significand)
include h

theorem contains_iff : (x.roundingInterval.onGrid g).contains n = true ↔ x.Covers (n * 10 ^ g) := by
  rw [RoundingInterval.contains_onGrid_iff x.denominator_pos, spans_roundingInterval_iff h]

theorem value_pos : 0 < x.roundingInterval.value :=
  Nat.mul_pos (by omega) (Nat.pow_pos (by decide))

/-- The search fails on a grid if neither neighbour of the number is in the interval. -/
theorem not_covers_of_nearest?_eq_none (hnone : (x.roundingInterval.onGrid g).nearest? = none) :
    ¬ x.Covers (x.roundingInterval.floor g * 10 ^ g) ∧
      ¬ x.Covers ((x.roundingInterval.floor g + 1 : Nat) * 10 ^ g) := by
  obtain ⟨-, hbelow, habove⟩ :=
    (x.roundingInterval.nearest?_cases g).resolve_left
      fun ⟨_, hs, _⟩ => by cases hnone.symm.trans hs
  rw [← contains_iff h, ← contains_iff h, hbelow, habove]
  exact ⟨Bool.false_ne_true, Bool.false_ne_true⟩

/-- A grid with a point in the interval has one next to the number. -/
theorem nearest?_ne_none_of_covers (hn : x.Covers (n * 10 ^ g)) :
    (x.roundingInterval.onGrid g).nearest? ≠ none := by
  intro hnone
  obtain ⟨hbelow, habove⟩ := not_covers_of_nearest?_eq_none h hnone
  obtain ⟨hle, hlt⟩ := x.modulus_between g
  have hcast {a b : Nat} (hab : a ≤ b) : (a : ℚ) * 10 ^ g ≤ b * 10 ^ g :=
    mul_le_mul_of_nonneg_right (by exact_mod_cast hab) (zpow_pos (by norm_num) _).le
  rcases le_or_gt n (x.roundingInterval.floor g) with hside | hside
  · exact hbelow (hn.between x.covers_modulus (hcast hside) hle)
  · exact habove (x.covers_modulus.between hn hlt.le (hcast hside))

/-- Neighbours that are both outside are at least as far apart as the ends. -/
theorem ends_le_of_nearest?_eq_none (hnone : (x.roundingInterval.onGrid g).nearest? = none) :
    x.highEnd - x.lowEnd ≤ 10 ^ g := by
  obtain ⟨hbelow, habove⟩ := not_covers_of_nearest?_eq_none h hnone
  obtain ⟨hle, hlt⟩ := x.modulus_between g
  obtain ⟨hlow, hhigh⟩ := x.ends_modulus
  have hfirst : (x.roundingInterval.floor g : ℚ) * 10 ^ g ≤ x.lowEnd :=
    le_of_not_gt fun hgt => hbelow (covers_of_lt hgt (hle.trans_lt hhigh))
  have hsecond : x.highEnd ≤ ((x.roundingInterval.floor g + 1 : Nat) : ℚ) * 10 ^ g :=
    le_of_not_gt fun hgt => habove (covers_of_lt (hlow.trans hlt) hgt)
  push_cast at hsecond
  linarith

/-- The exponent of the leading digit. -/
theorem pow_magnitude : (10 : ℚ) ^ x.roundingInterval.magnitude ≤ x.modulus ∧
    x.modulus < 10 ^ (x.roundingInterval.magnitude + 1) := by
  rw [← centre_roundingInterval]
  exact RoundingInterval.magnitude_spec x.denominator_pos (value_pos h)

/-- Seventeen digits suffice: the grid is finer than the interval is wide. -/
theorem nearest?_seventeen :
    (x.roundingInterval.onGrid (x.roundingInterval.magnitude + 1 - (17 : Nat))).nearest? ≠
      none := by
  intro hnone
  have hends := ends_le_of_nearest?_eq_none h hnone
  have hmag := (pow_magnitude h).1
  have hpos : (0 : ℚ) < 2 ^ (x.scale - 2) := zpow_pos (by norm_num) _
  have hgrid : x.roundingInterval.magnitude + 1 - (17 : Nat) =
      x.roundingInterval.magnitude - (16 : Nat) := by
    push_cast
    ring
  rw [hgrid, highEnd, lowEnd, ← sub_mul] at hends
  rw [modulus_eq_quarters, ← grid_mul_pow _ 16] at hmag
  have hwide : (2 + x.lowGap : ℚ) * 10 ^ 16 ≤ 4 * x.significand := by
    refine le_of_mul_le_mul_right ?_ hpos
    linarith
  have hwide : (2 + x.lowGap) * 10 ^ 16 ≤ 4 * x.significand := by exact_mod_cast hwide
  have hmost := x.significand_lt
  rcases x.scale_ge.eq_or_lt with hscale | hscale
  · have := lowGap_eq_two hscale.symm
    omega
  · have := significand_of_scale hscale
    omega

/-- On the grid of `k` digits the number has no more than `k` digits in front of the point. -/
theorem floor_lt (k : Nat) :
    x.roundingInterval.floor (x.roundingInterval.magnitude + 1 - k) < 10 ^ k := by
  have hle := (x.modulus_between (x.roundingInterval.magnitude + 1 - k)).1
  have hlt := hle.trans_lt (pow_magnitude h).2
  have hpos : (0 : ℚ) < 10 ^ (x.roundingInterval.magnitude + 1 - (k : Int)) :=
    zpow_pos (by norm_num) _
  rw [← grid_mul_pow (x.roundingInterval.magnitude + 1) k] at hlt
  have := lt_of_mul_lt_mul_right hlt hpos.le
  exact_mod_cast this

theorem exists_found : ∃ k n, x.Found k n := by
  rcases x.roundingInterval.search_cases 1 17 with ⟨k, n, hk, -, hs, hn, hnone⟩ | ⟨-, hnone⟩
  · obtain ⟨n', hn', hfloor, hcontains⟩ :=
      (x.roundingInterval.nearest?_cases _).resolve_right fun hnil => by cases hn.symm.trans hnil.1
    obtain rfl : n = n' := Option.some.inj (hn.symm.trans hn')
    have hcovers := (contains_iff h).1 hcontains
    refine ⟨k, n, hk, ?_, ?_, by simp only [shortest, hs, Option.getD_some], hcovers, hnone⟩
    · rintro rfl
      have := (lowEnd_pos h).trans_le hcovers.le.1
      simp at this
    · have := floor_lt h k
      omega
  · exact absurd (hnone 17 (by decide) (by decide)) (nearest?_seventeen h)

theorem shortest_normal : x.shortest.Normal := by
  obtain ⟨k, n, hfound⟩ := exists_found h
  rw [hfound.shortest]
  exact Scientific.normal_dropTrailingZeros hfound.ne_zero _

/-- The digits read back to the number. -/
theorem covers_shortest : x.Covers x.shortest.value := by
  obtain ⟨k, n, hfound⟩ := exists_found h
  rw [hfound.shortest, Scientific.value_dropTrailingZeros hfound.ne_zero]
  exact hfound.covers

/-- If other digits round to the number, so does a point of the grid of as many digits: they
themselves, or the power of ten between them and the number. -/
theorem exists_covers_onGrid {t : Scientific} (ht : t.Normal) (hcovers : x.Covers t.value) :
    ∃ m : Nat, x.Covers (m * 10 ^ (x.roundingInterval.magnitude + 1 - t.digits.length)) := by
  rcases le_or_gt x.roundingInterval.magnitude t.exponent with hle | hgt
  · refine ⟨numberOf t.digits * 10 ^ (t.exponent - x.roundingInterval.magnitude).toNat, ?_⟩
    push_cast
    rw [mul_assoc, ← zpow_natCast, ← zpow_add₀ (by norm_num), Int.toNat_of_nonneg (by omega)]
    rw [Scientific.value] at hcovers
    convert hcovers using 3
    ring
  · have hlength := List.length_pos_of_ne_nil ht.ne_nil
    have hpower : ((10 ^ (t.digits.length - 1) : Nat) : ℚ) *
        10 ^ (x.roundingInterval.magnitude + 1 - t.digits.length) =
          10 ^ x.roundingInterval.magnitude := by
      push_cast
      rw [← zpow_natCast, ← zpow_add₀ (by norm_num), Nat.cast_pred hlength]
      congr 1
      ring
    refine ⟨10 ^ (t.digits.length - 1), hcovers.between x.covers_modulus ?_ ?_⟩
    · rw [hpower]
      exact ht.value_lt.le.trans (zpow_le_zpow_right₀ (by norm_num) (by omega))
    · rw [hpower]
      exact (pow_magnitude h).1

/-- No fewer digits do. -/
theorem length_shortest_le {t : Scientific} (ht : t.Normal) (hcovers : x.Covers t.value) :
    x.shortest.digits.length ≤ t.digits.length := by
  obtain ⟨k, n, hfound⟩ := exists_found h
  calc x.shortest.digits.length ≤ k := by
        rw [hfound.shortest]
        exact length_dropTrailingZeros_le hfound.ne_zero hfound.pos hfound.le
    _ ≤ t.digits.length := by
        refine le_of_not_gt fun hlt => ?_
        obtain ⟨m, hm⟩ := exists_covers_onGrid h ht hcovers
        exact nearest?_ne_none_of_covers h hm
          (hfound.coarser _ (List.length_pos_of_ne_nil ht.ne_nil) hlt)

end Search

end Binary64

end LiveMarkup.Decimal
