import LiveMarkup.Proofs.Decimal.Numeral
import LiveMarkup.Proofs.Decimal.Shortest
import LiveMarkup.Value.Primitive

set_option autoImplicit false

/-!
The text of a number says exactly the number: its digits are the fewest that round to it, the text
is read back as those digits, and no other number has the same text.
-/

namespace LiveMarkup

open Decimal

namespace Decimal.Binary64

variable {x y : Binary64}

theorem text_of_finite (hx : x.IsFinite) :
    x.text = if x.isZero then "0"
      else String.ofList (signChars x.isNegative ++ x.shortest.text) := by
  rw [text, hx.1, hx.2]
  rfl

theorem exists_said (hx : x.IsFinite) (hz : x.isZero = false) :
    ∃ n, x.shortest.Said x.isNegative x.text.toList n := by
  rw [text_of_finite hx, hz, if_neg (by decide), String.toList_ofList]
  exact (shortest_normal (significand_pos hz)).exists_said x.isNegative

/-- Zero is told from every other number. -/
theorem text_ne_zero (hx : x.IsFinite) (hz : x.isZero = false) : x.text ≠ "0" := by
  intro htext
  obtain ⟨n, hn⟩ := exists_said hx hz
  have hread : Numeral.read x.text.toList = some ⟨false, [0], [], 0⟩ := by
    rw [htext]
    rfl
  obtain rfl := Option.some.inj (hn.read.symm.trans hread)
  have hvalue := hn.value
  have hpos := (shortest_normal (significand_pos hz)).value_pos
  rw [← hn.sign, if_neg (by decide), one_mul] at hvalue
  rw [← hvalue] at hpos
  simp [Numeral.value] at hpos

theorem eq_of_text_eq (hx : x.IsFinite) (hxz : x.isZero = false) (hy : y.IsFinite)
    (hyz : y.isZero = false) (h : x.text = y.text) : x = y := by
  obtain ⟨n, hn⟩ := exists_said hx hxz
  obtain ⟨m, hm⟩ := exists_said hy hyz
  rw [← h] at hm
  obtain rfl := Option.some.inj (hn.read.symm.trans hm.read)
  have hsign : x.isNegative = y.isNegative := hn.sign.symm.trans hm.sign
  have hvalue : x.shortest.value = y.shortest.value := by
    have := hn.value.symm.trans hm.value
    rw [hsign] at this
    exact mul_left_cancel₀ (by split <;> norm_num) this
  have hcovers := covers_shortest (significand_pos hxz)
  rw [hvalue] at hcovers
  obtain ⟨hscale, hsig⟩ := hcovers.unique (covers_shortest (significand_pos hyz))
  obtain ⟨hbiased, hfraction⟩ := parts_of_significand hsig hscale
  exact ext_parts hsign hbiased hfraction

theorem sameNumber_of_text_eq (hx : x.IsFinite) (hy : y.IsFinite) (h : x.text = y.text) :
    x.sameNumber y = true := by
  rw [sameNumber, hx.1, hy.1]
  cases hxz : x.isZero <;> cases hyz : y.isZero
  · simp [eq_of_text_eq hx hxz hy hyz h]
  · exact absurd (h.trans (by rw [text_of_finite hy, hyz, if_pos rfl])) (text_ne_zero hx hxz)
  · exact absurd (h.symm.trans (by rw [text_of_finite hx, hxz, if_pos rfl])) (text_ne_zero hy hyz)
  · simp

end Decimal.Binary64

/-- The text of a finite number other than zero. Its digits are the fewest of all that round to the
number, the text is one layout of them and reads back as their exact value, in plain notation for
the exponents from -6 to 20 and nowhere else. No finite number with another value has this text. -/
theorem Primitive.text_number {x : Binary64} (hx : x.IsFinite) (hz : x.isZero = false) :
    x.shortest.Normal ∧ x.Covers x.shortest.value ∧
      (∀ t : Scientific, t.Normal → x.Covers t.value →
        x.shortest.digits.length ≤ t.digits.length) ∧
      (∃ n, x.shortest.Said x.isNegative (Primitive.number x).text.toList n) ∧
      ∀ y : Binary64, y.IsFinite → (Primitive.number x).text = (Primitive.number y).text →
        x.sameNumber y = true := by
  have hpos := Binary64.significand_pos hz
  exact ⟨Binary64.shortest_normal hpos, Binary64.covers_shortest hpos,
    fun t => Binary64.length_shortest_le hpos, Binary64.exists_said hx hz,
    fun y hy => Binary64.sameNumber_of_text_eq hx hy⟩

theorem Primitive.text_number_tenth :
    (∃ n, (Binary64.mk 0x3FB999999999999A).shortest.Said false
      (Primitive.number ⟨0x3FB999999999999A⟩).text.toList n) ∧
    (Primitive.number ⟨0x3FB999999999999A⟩).text ≠
      (Primitive.number ⟨0x3FB9999999999999⟩).text := by
  have htenth := Primitive.text_number (x := ⟨0x3FB999999999999A⟩) (by decide) (by decide)
  exact ⟨htenth.2.2.2.1, fun h => absurd (htenth.2.2.2.2 _ (by decide) h) (by decide)⟩

example : (Primitive.number ⟨0x3FB999999999999A⟩).text = "0.1" := by decide +kernel

end LiveMarkup
