import LiveMarkup.Proofs.Decimal.Digits
import Mathlib.Tactic.Linarith

set_option autoImplicit false

/-!
The reals that round to a double precision number, up to half way to its neighbours on both sides.
No real rounds to two numbers: the numbers are ordered by scale and significand, and so are the ends
of their intervals.
-/

namespace LiveMarkup.Decimal.Binary64

variable {x y : Binary64} {q : ℚ}

def IsFinite (x : Binary64) : Prop := x.isNaN = false ∧ x.isInfinite = false

instance (x : Binary64) : Decidable x.IsFinite := inferInstanceAs (Decidable (_ ∧ _))

theorem fraction_lt (x : Binary64) : x.fraction < 2 ^ 52 := Nat.mod_lt _ (by decide)

theorem significand_lt (x : Binary64) : x.significand < 2 ^ 53 := by
  have := x.fraction_lt
  unfold significand
  split
  · omega
  · rw [Nat.pow_eq]
    omega

theorem significand_pos (h : x.isZero = false) : 0 < x.significand := by
  unfold significand
  split
  next hb =>
    have hne : x.fraction ≠ 0 := by simpa [isZero, hb] using h
    exact Nat.pos_of_ne_zero hne
  next => simp only [Nat.pow_eq]; omega

/-- The number without its sign. -/
def modulus (x : Binary64) : ℚ := x.significand * 2 ^ x.scale

/-- How far the middle between the number and the one below it is away, in quarters of a unit. -/
def lowGap (x : Binary64) : Nat := if x.hasNarrowBelow then 1 else 2

def lowEnd (x : Binary64) : ℚ := (4 * x.significand - x.lowGap) * 2 ^ (x.scale - 2)

def highEnd (x : Binary64) : ℚ := (4 * x.significand + 2) * 2 ^ (x.scale - 2)

/-- The number `q` rounds to `x`, signs aside. An end is as near to the neighbour, and a tie goes
to the even significand. -/
def Covers (x : Binary64) (q : ℚ) : Prop :=
  if x.significand % 2 = 0 then x.lowEnd ≤ q ∧ q ≤ x.highEnd else x.lowEnd < q ∧ q < x.highEnd

/-- The three parts of the bits. -/
theorem ext_parts (hsign : x.isNegative = y.isNegative) (hbiased : x.biased = y.biased)
    (hfraction : x.fraction = y.fraction) : x = y := by
  obtain ⟨a⟩ := x
  obtain ⟨b⟩ := y
  congr 1
  apply UInt64.toNat_inj.1
  have ha := a.toNat_lt
  have hb := b.toNat_lt
  simp only [isNegative, biased, fraction, decide_eq_decide, Nat.pow_eq] at hsign hbiased hfraction
  omega

theorem parts_of_significand (hsig : x.significand = y.significand) (hscale : x.scale = y.scale) :
    x.biased = y.biased ∧ x.fraction = y.fraction := by
  have hx := x.fraction_lt
  have hy := y.fraction_lt
  by_cases hx0 : x.biased = 0 <;> by_cases hy0 : y.biased = 0 <;>
    simp only [significand, scale, hx0, hy0, if_true, if_false, Nat.pow_eq] at hsig hscale <;> omega

theorem scale_ge (x : Binary64) : -1074 ≤ x.scale := by
  unfold scale
  split <;> omega

/-- Above the smallest scale the leading bit is set; where it is the only one, the neighbour below
is the nearer one. -/
theorem significand_of_scale (h : -1074 < x.scale) :
    x.significand = 2 ^ 52 ∧ x.lowGap = 1 ∨ 2 ^ 52 < x.significand ∧ x.lowGap = 2 := by
  have hb : 1 < x.biased := by
    unfold scale at h
    split at h <;> omega
  rw [significand, if_neg (by omega), Nat.pow_eq, lowGap, hasNarrowBelow]
  by_cases hzero : x.fraction = 0
  · simp [hzero, hb]
  · simp [hzero, Nat.pos_of_ne_zero hzero]

theorem lowGap_eq_two (h : x.scale = -1074) : x.lowGap = 2 := by
  have hb : ¬ 1 < x.biased := by
    unfold scale at h
    split at h <;> omega
  simp [lowGap, hasNarrowBelow, hb]

theorem lowGap_cases (x : Binary64) : x.lowGap = 1 ∨ x.lowGap = 2 := by
  unfold lowGap
  split <;> simp

/-- Numbers in order have their reals in order. They share at most an end, and then one of them is
odd. -/
theorem highEnd_le_lowEnd
    (h : x.scale < y.scale ∨ x.scale = y.scale ∧ x.significand < y.significand) :
    x.highEnd ≤ y.lowEnd ∧
      (x.highEnd = y.lowEnd → x.significand % 2 = 1 ∨ y.significand % 2 = 1) := by
  have hpos : (0 : ℚ) < 2 ^ (x.scale - 2) := zpow_pos (by norm_num) _
  have hgap := y.lowGap_cases
  unfold highEnd lowEnd
  rcases h with hscale | ⟨hscale, hsig⟩
  · have hleast := significand_of_scale (x.scale_ge.trans_lt hscale)
    have hmost := x.significand_lt
    -- the unit is at least doubled, and halved the significand is at least as large
    have htwice : 2 * (2 : ℚ) ^ (x.scale - 2) ≤ 2 ^ (y.scale - 2) := by
      rw [← zpow_one_add₀ (by norm_num)]
      exact zpow_le_zpow_right₀ (by norm_num) (by omega)
    have hends : (4 * x.significand + 2 : ℚ) ≤ 2 * (4 * y.significand - y.lowGap) := by
      have : 4 * x.significand + 2 + 2 * y.lowGap ≤ 8 * y.significand := by omega
      have : (4 * x.significand + 2 + 2 * y.lowGap : ℚ) ≤ 8 * y.significand := by
        exact_mod_cast this
      linarith
    have hends_pos : (0 : ℚ) ≤ 4 * y.significand - y.lowGap := by
      have : (0 : ℚ) ≤ x.significand := Nat.cast_nonneg _
      linarith
    have hle := mul_le_mul_of_nonneg_right hends hpos.le
    have hle' := mul_le_mul_of_nonneg_left htwice hends_pos
    refine ⟨by linarith, fun heq => .inl ?_⟩
    have : (4 * x.significand + 2 : ℚ) = 2 * (4 * y.significand - y.lowGap) :=
      mul_right_cancel₀ hpos.ne' (by linarith)
    have : 4 * x.significand + 2 + 2 * y.lowGap = 8 * y.significand := by
      have : (4 * x.significand + 2 + 2 * y.lowGap : ℚ) = 8 * y.significand := by linarith
      exact_mod_cast this
    omega
  · rw [hscale] at hpos ⊢
    have hends : (4 * x.significand + 2 : ℚ) ≤ 4 * y.significand - y.lowGap := by
      have : 4 * x.significand + 2 + y.lowGap ≤ 4 * y.significand := by omega
      have : (4 * x.significand + 2 + y.lowGap : ℚ) ≤ 4 * y.significand := by exact_mod_cast this
      linarith
    refine ⟨mul_le_mul_of_nonneg_right hends hpos.le, fun heq => ?_⟩
    have : 4 * x.significand + 2 + y.lowGap = 4 * y.significand := by
      have := mul_right_cancel₀ hpos.ne' heq
      have : (4 * x.significand + 2 + y.lowGap : ℚ) = 4 * y.significand := by linarith
      exact_mod_cast this
    omega

theorem Covers.le (h : x.Covers q) : x.lowEnd ≤ q ∧ q ≤ x.highEnd := by
  unfold Covers at h
  split at h
  · exact h
  · exact ⟨h.1.le, h.2.le⟩

theorem Covers.lt (h : x.Covers q) (hodd : x.significand % 2 = 1) :
    x.lowEnd < q ∧ q < x.highEnd := by
  rwa [Covers, if_neg (by omega)] at h

theorem not_covers_both
    (h : x.scale < y.scale ∨ x.scale = y.scale ∧ x.significand < y.significand)
    (hx : x.Covers q) : ¬ y.Covers q := by
  intro hy
  obtain ⟨hle, hodd⟩ := highEnd_le_lowEnd h
  rcases hodd (le_antisymm hle (hy.le.1.trans hx.le.2)) with ho | ho
  · exact (hx.lt ho).2.not_ge (hle.trans hy.le.1)
  · exact (hy.lt ho).1.not_ge (hx.le.2.trans hle)

/-- No real rounds to two numbers. -/
theorem Covers.unique (hx : x.Covers q) (hy : y.Covers q) :
    x.scale = y.scale ∧ x.significand = y.significand := by
  rcases lt_trichotomy x.scale y.scale with hlt | heq | hlt
  · exact absurd hy (not_covers_both (.inl hlt) hx)
  · rcases lt_trichotomy x.significand y.significand with hlt | hsig | hlt
    · exact absurd hy (not_covers_both (.inr ⟨heq, hlt⟩) hx)
    · exact ⟨heq, hsig⟩
    · exact absurd hx (not_covers_both (.inr ⟨heq.symm, hlt⟩) hy)
  · exact absurd hx (not_covers_both (.inl hlt) hy)

end LiveMarkup.Decimal.Binary64
