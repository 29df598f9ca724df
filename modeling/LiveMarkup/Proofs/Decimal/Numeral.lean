import LiveMarkup.Decimal.Layout
import LiveMarkup.Proofs.Decimal.Digits
import Mathlib.Tactic.SplitIfs

set_option autoImplicit false

/-!
Numbers as texts write them: a sign, digits, a point with more digits, and `e+` or `e-` with an
exponent. Such a text is read here without a look at how it was laid out, and what the layout
writes is read back as the digits, the point and the exponent that went into it.
-/

namespace LiveMarkup.Decimal

/-- A written number, as it stands: leading and trailing zeros are kept. -/
structure Numeral where
  negative : Bool
  whole : List Nat
  fraction : List Nat
  exponent : Int
  deriving DecidableEq, Repr

namespace Numeral

/-- The number that is denoted. -/
def value (n : Numeral) : ℚ :=
  (if n.negative then -1 else 1) *
    (numberOf (n.whole ++ n.fraction) * 10 ^ (n.exponent - n.fraction.length))

/-! ## Reading -/

/-- The digits that a text begins with, and the text behind them. -/
def readDigits (cs : List Char) : List Nat × List Char :=
  ((cs.takeWhile Char.isDigit).map fun c => c.toNat - '0'.toNat, cs.dropWhile Char.isDigit)

def readSign : List Char → Bool × List Char
  | '-' :: cs => (true, cs)
  | cs => (false, cs)

/-- A point has at least one digit behind it. -/
def readFraction : List Char → Option (List Nat × List Char)
  | '.' :: cs => if (readDigits cs).1.isEmpty then none else some (readDigits cs)
  | cs => some ([], cs)

/-- A natural number that is the rest of the text. -/
def readNat (cs : List Char) : Option Nat :=
  if (readDigits cs).1.isEmpty || !(readDigits cs).2.isEmpty then none
  else some (numberOf (readDigits cs).1)

/-- The exponent has a sign always, and zero is not written. -/
def readExponent : List Char → Option Int
  | [] => some 0
  | 'e' :: '+' :: cs => (readNat cs).map fun n : Nat => (n : Int)
  | 'e' :: '-' :: cs => (readNat cs).map fun n : Nat => -(n : Int)
  | _ => none

/-- A text as a numeral. There is at least one digit in front of the point. -/
def read (cs : List Char) : Option Numeral :=
  let (negative, cs) := readSign cs
  let (whole, cs) := readDigits cs
  if whole.isEmpty then none
  else do
    let (fraction, cs) ← readFraction cs
    let exponent ← readExponent cs
    some ⟨negative, whole, fraction, exponent⟩

end Numeral

/-! ## Laying out -/

def signChars (negative : Bool) : List Char := if negative then ['-'] else []

def fractionChars (ds : List Nat) : List Char := if ds = [] then [] else '.' :: digitChars ds

def exponentChars (e : Int) : List Char :=
  if e = 0 then [] else 'e' :: (if e < 0 then '-' else '+') :: digitChars (digitsOf e.natAbs)

/-- The text of a numeral. -/
def Numeral.chars (n : Numeral) : List Char :=
  signChars n.negative ++
    (digitChars n.whole ++ (fractionChars n.fraction ++ exponentChars n.exponent))

/-- The numerals that digits and an exponent are laid out as. Below a whole number zeros fill the
places up to the point, in front of the first digit those behind it; otherwise the point stands
between the digits. With an exponent it stands behind the first digit. -/
inductive Scientific.LaidOut (s : Scientific) (negative : Bool) : Numeral → Prop where
  | whole {k : Nat} : s.exponent < 21 → (s.digits.length : Int) + k = s.exponent + 1 →
      LaidOut s negative ⟨negative, s.digits ++ List.replicate k 0, [], 0⟩
  | between {whole fraction : List Nat} : s.exponent < 21 → s.digits = whole ++ fraction →
      whole ≠ [] → fraction ≠ [] → (whole.length : Int) = s.exponent + 1 →
      LaidOut s negative ⟨negative, whole, fraction, 0⟩
  | below {k : Nat} : -7 < s.exponent → s.exponent + 1 + k = 0 →
      LaidOut s negative ⟨negative, [0], List.replicate k 0 ++ s.digits, 0⟩
  | exponential {d : Nat} {ds : List Nat} : s.exponent ≤ -7 ∨ 21 ≤ s.exponent →
      s.digits = d :: ds → LaidOut s negative ⟨negative, [d], ds, s.exponent⟩

variable {n : Numeral} {s : Scientific} {ds : List Nat} {rest cs : List Char} {negative : Bool}

/-! ### What is written is read back -/

theorem isDigit_digit {d : Nat} (h : d < 10) : (Char.ofNat ('0'.toNat + d)).isDigit = true := by
  interval_cases d <;> rfl

theorem toNat_digit_sub {d : Nat} (h : d < 10) :
    (Char.ofNat ('0'.toNat + d)).toNat - '0'.toNat = d := by
  interval_cases d <;> rfl

@[simp] theorem length_digitChars (ds : List Nat) : (digitChars ds).length = ds.length :=
  List.length_map _

theorem digitChars_append (ds es : List Nat) :
    digitChars (ds ++ es) = digitChars ds ++ digitChars es := List.map_append

theorem digitChars_zeros (k : Nat) : digitChars (List.replicate k 0) = zeros k := by
  simp [digitChars, zeros]

theorem digitChars_digitsOf (k : Nat) : digitChars (digitsOf k) = Nat.toDigits 10 k := by
  rw [digitChars, digitsOf, List.map_map]
  refine (List.map_congr_left fun c hc => ?_).trans (List.map_id _)
  have hdigit : 48 ≤ c.toNat ∧ c.toNat ≤ 57 := by
    have := Nat.isDigit_of_mem_toDigits (by decide) (by decide) hc
    simpa [Char.isDigit, UInt32.le_iff_toNat_le] using this
  have hzero : '0'.toNat = 48 := rfl
  rw [Function.comp_apply, Nat.add_sub_cancel' (hzero ▸ hdigit.1), Char.ofNat_toNat, id]

/-- No digit stands at the beginning of the text. -/
def Stops (rest : List Char) : Prop := ∀ c cs, rest = c :: cs → c.isDigit = false

theorem readDigits_append (h : ∀ d ∈ ds, d < 10) (hrest : Stops rest) :
    Numeral.readDigits (digitChars ds ++ rest) = (ds, rest) := by
  have hdigits : ∀ c ∈ digitChars ds, c.isDigit = true := by
    intro c hc
    obtain ⟨d, hd, rfl⟩ := List.mem_map.1 hc
    exact isDigit_digit (h d hd)
  have hstop : rest.takeWhile Char.isDigit = [] ∧ rest.dropWhile Char.isDigit = rest := by
    cases rest with
    | nil => exact ⟨rfl, rfl⟩
    | cons c cs => simp [hrest c cs rfl]
  rw [Numeral.readDigits, List.takeWhile_append_of_pos hdigits,
    List.dropWhile_append_of_pos hdigits, hstop.1, hstop.2, List.append_nil, digitChars, List.map_map]
  congr 1
  exact (List.map_congr_left fun d hd => toNat_digit_sub (h d hd)).trans (List.map_id ds)

theorem readNat_digitsOf {k : Nat} (h : k ≠ 0) :
    Numeral.readNat (digitChars (digitsOf k)) = some k := by
  have hread : Numeral.readDigits (digitChars (digitsOf k)) = (digitsOf k, []) := by
    have hstop : Stops [] := fun c cs hc => by cases hc
    have := readDigits_append (fun d hd => lt_ten_of_mem_digitsOf h hd) hstop
    rwa [List.append_nil] at this
  obtain ⟨d, ds, hd, -⟩ := exists_digitsOf_eq_cons h
  rw [Numeral.readNat, hread, if_neg (by simp [hd]), numberOf_digitsOf h]

theorem stops_exponentChars (e : Int) : Stops (exponentChars e) := by
  intro c cs hc
  unfold exponentChars at hc
  split_ifs at hc
  all_goals
    cases hc
    rfl

theorem readExponent_exponentChars (e : Int) :
    Numeral.readExponent (exponentChars e) = some e := by
  unfold exponentChars
  split_ifs with hzero hneg
  · rw [hzero, Numeral.readExponent]
  · rw [Numeral.readExponent, readNat_digitsOf (by omega), Option.map_some, Option.some.injEq]
    omega
  · rw [Numeral.readExponent, readNat_digitsOf (by omega), Option.map_some, Option.some.injEq]
    omega

theorem readFraction_fractionChars (h : ∀ d ∈ ds, d < 10) (e : Int) :
    Numeral.readFraction (fractionChars ds ++ exponentChars e) = some (ds, exponentChars e) := by
  unfold fractionChars
  split_ifs with hnil
  · rw [List.nil_append, hnil, Numeral.readFraction]
    intro cs hc
    unfold exponentChars at hc
    split_ifs at hc <;> cases hc
  · rw [List.cons_append, Numeral.readFraction, readDigits_append h (stops_exponentChars e)]
    simp [hnil]

theorem stops_fractionChars (e : Int) : Stops (fractionChars ds ++ exponentChars e) := by
  unfold fractionChars
  split_ifs
  · exact stops_exponentChars e
  · intro c cs hc
    cases hc
    rfl

theorem readSign_signChars {d : Nat} (h : d < 10) :
    Numeral.readSign (signChars negative ++ (digitChars (d :: ds) ++ rest)) =
      (negative, digitChars (d :: ds) ++ rest) := by
  cases negative with
  | true => rfl
  | false =>
    have hne : Char.ofNat ('0'.toNat + d) ≠ '-' := fun he => by
      have := isDigit_digit h
      rw [he] at this
      cases this
    rw [signChars, if_neg (by decide), List.nil_append, Numeral.readSign]
    exact fun cs hc => hne (List.head_eq_of_cons_eq hc)

/-- Decimal digits, at least one of them in front of the point. -/
structure Numeral.Proper (n : Numeral) : Prop where
  ne_nil : n.whole ≠ []
  whole : ∀ d ∈ n.whole, d < 10
  fraction : ∀ d ∈ n.fraction, d < 10

theorem Numeral.Proper.read_chars (h : n.Proper) : Numeral.read n.chars = some n := by
  obtain ⟨negative, whole, fraction, e⟩ := n
  cases whole with
  | nil => exact absurd rfl h.ne_nil
  | cons d ds =>
    rw [Numeral.read, Numeral.chars, readSign_signChars (h.whole d List.mem_cons_self)]
    simp only [readDigits_append h.whole (stops_fractionChars e),
      readFraction_fractionChars h.fraction e, List.isEmpty_cons, Bool.false_eq_true, if_false,
      Option.bind_eq_bind, Option.bind_some, readExponent_exponentChars e]

theorem not_mem_digitChars {c : Char} (h : ∀ d ∈ ds, d < 10) (hc : c.isDigit = false) :
    c ∉ digitChars ds := by
  intro hmem
  obtain ⟨d, hd, rfl⟩ := List.mem_map.1 hmem
  cases hc.symm.trans (isDigit_digit (h d hd))

theorem Numeral.Proper.exponent_not_mem_iff (h : n.Proper) : 'e' ∉ n.chars ↔ n.exponent = 0 := by
  have hsign : 'e' ∉ signChars n.negative := by cases n.negative <;> decide
  have hwhole : 'e' ∉ digitChars n.whole := not_mem_digitChars h.whole rfl
  have hfraction : 'e' ∉ fractionChars n.fraction := by
    unfold fractionChars
    split_ifs
    · exact List.not_mem_nil
    · simpa using not_mem_digitChars h.fraction rfl
  have hexponent : 'e' ∉ exponentChars n.exponent ↔ n.exponent = 0 := by
    unfold exponentChars
    split_ifs <;> simp_all
  simp only [Numeral.chars, List.mem_append, hsign, hwhole, hfraction, false_or, hexponent]

/-! ### The layout of digits and an exponent -/

namespace Scientific

theorem LaidOut.proper (h : s.LaidOut negative n) (hs : s.Normal) : n.Proper := by
  have hzeros {k : Nat} : ∀ d ∈ List.replicate k 0, d < 10 := fun d hd => by
    rw [List.eq_of_mem_replicate hd]
    decide
  cases h with
  | whole =>
    exact ⟨List.append_ne_nil_of_left_ne_nil hs.ne_nil _,
      List.forall_mem_append.2 ⟨hs.digit, hzeros⟩, by simp⟩
  | between _ hsplit hne =>
    obtain ⟨hwhole, hfraction⟩ := List.forall_mem_append.1 (hsplit ▸ hs.digit)
    exact ⟨hne, hwhole, hfraction⟩
  | below => exact ⟨by simp, by simp, List.forall_mem_append.2 ⟨hzeros, hs.digit⟩⟩
  | exponential _ hcons =>
    obtain ⟨hd, hds⟩ := List.forall_mem_cons.1 (hcons ▸ hs.digit)
    exact ⟨by simp, by simpa using hd, hds⟩

theorem LaidOut.negative_eq (h : s.LaidOut negative n) : n.negative = negative := by
  cases h <;> rfl

/-- No layout changes the number. -/
theorem LaidOut.value_eq (h : s.LaidOut negative n) :
    n.value = (if negative then -1 else 1) * s.value := by
  rw [Numeral.value, h.negative_eq, Scientific.value]
  congr 1
  cases h with
  | @whole k _ hk =>
    rw [List.append_nil, numberOf_append_zeros, ← hk]
    push_cast
    rw [mul_assoc, ← zpow_natCast, ← zpow_add₀ (by norm_num)]
    congr 2
    simp
  | between _ hsplit _ _ hlength =>
    rw [hsplit, ← hlength, List.length_append]
    congr 2
    push_cast
    ring
  | @below k _ hk =>
    rw [← List.append_assoc, show ([0] : List Nat) = List.replicate 1 0 from rfl,
      ← List.replicate_add, numberOf_zeros_append, List.length_append, List.length_replicate]
    congr 2
    push_cast
    omega
  | exponential _ hcons =>
    rw [hcons, List.singleton_append, List.length_cons]
    congr 2
    push_cast
    ring

theorem exists_laidOut (h : s.digits ≠ []) (negative : Bool) : ∃ n, s.LaidOut negative n := by
  have hlength := List.length_pos_of_ne_nil h
  by_cases hplain : -7 < s.exponent ∧ s.exponent < 21
  · by_cases hbelow : s.exponent + 1 ≤ 0
    · exact ⟨_, .below (k := (-(s.exponent + 1)).toNat) hplain.1 (by omega)⟩
    · by_cases hwhole : (s.digits.length : Int) ≤ s.exponent + 1
      · exact ⟨_, .whole (k := (s.exponent + 1 - s.digits.length).toNat) hplain.2 (by omega)⟩
      · refine ⟨_, .between hplain.2 (List.take_append_drop (s.exponent + 1).toNat s.digits).symm
          (fun hnil => ?_) (fun hnil => ?_) ?_⟩
        · rcases List.take_eq_nil_iff.1 hnil with hzero | hnil
          · omega
          · exact h hnil
        · have := List.drop_eq_nil_iff.1 hnil
          omega
        · rw [List.length_take]
          omega
  · obtain ⟨d, ds, hd⟩ := List.exists_cons_of_ne_nil h
    exact ⟨_, .exponential (by omega) hd⟩

/-- Every layout is the one that is written: where the point is told apart, no count is negative
and no cut lies behind the last digit. -/
theorem LaidOut.chars_eq (h : s.LaidOut negative n) (hs : s.digits ≠ []) :
    signChars negative ++ s.text = n.chars := by
  have hlength := List.length_pos_of_ne_nil hs
  rw [Numeral.chars, h.negative_eq, List.append_cancel_left_eq]
  cases h with
  | @whole k hmost hk =>
    have hcount : (s.exponent + 1 - s.digits.length).toNat = k := by omega
    rw [text, if_pos (by omega)]
    simp only [plain, length_digitChars]
    rw [if_neg (by omega), if_pos (by omega), hcount, digitChars_append, digitChars_zeros]
    simp [fractionChars, exponentChars]
  | @between whole fraction hmost hsplit hwhole hfraction hk =>
    have hpos := List.length_pos_of_ne_nil hwhole
    have hrest := List.length_pos_of_ne_nil hfraction
    have hcount : (s.exponent + 1).toNat = whole.length := by omega
    have hsize : s.digits.length = whole.length + fraction.length := by
      rw [hsplit, List.length_append]
    rw [text, if_pos (by omega)]
    simp only [plain, length_digitChars]
    rw [if_neg (by omega), if_neg (by omega), hcount, hsplit, digitChars_append,
      List.take_left' (length_digitChars _), List.drop_left' (length_digitChars _)]
    simp [fractionChars, exponentChars, hfraction]
  | @below k hleast hk =>
    have hcount : (-(s.exponent + 1)).toNat = k := by omega
    rw [text, if_pos (by omega)]
    simp only [plain, length_digitChars]
    rw [if_pos (by omega), hcount, ← digitChars_zeros, ← digitChars_append, fractionChars,
      if_neg (by simp [hs]), exponentChars, if_pos rfl, List.append_nil]
    rfl
  | @exponential d ds hfar hcons =>
    have hdigits : (toString s.exponent.natAbs).toList =
        digitChars (digitsOf s.exponent.natAbs) := by
      rw [Nat.toString_eq_ofList_toDigits, String.toList_ofList, digitChars_digitsOf]
    have hne : s.exponent ≠ 0 := by omega
    rw [text, if_neg (by omega), Scientific.exponential, hcons, hdigits, exponentChars, if_neg hne]
    rcases hfar with hsmall | hlarge
    · have hneg : s.exponent < 0 := by omega
      simp only [if_pos hneg]
      cases ds <;> rfl
    · have hpos : ¬ s.exponent < 0 := by omega
      simp only [if_neg hpos, if_true]
      cases ds <;> rfl

theorem LaidOut.exponent_eq_zero_iff (h : s.LaidOut negative n) :
    n.exponent = 0 ↔ -7 < s.exponent ∧ s.exponent < 21 := by
  cases h with
  | whole => exact ⟨fun _ => by omega, fun _ => rfl⟩
  | between => exact ⟨fun _ => by omega, fun _ => rfl⟩
  | below => exact ⟨fun _ => by omega, fun _ => rfl⟩
  | exponential => exact ⟨fun he => by dsimp only at he; omega, fun hplain => by omega⟩

/-- The number that a text is to say: the text is one layout of the digits, it is read back as this
layout, and so as the number itself. An exponent is written where the notation is not plain. -/
structure Said (s : Scientific) (negative : Bool) (cs : List Char) (n : Numeral) : Prop where
  laidOut : s.LaidOut negative n
  chars : cs = n.chars
  read : Numeral.read cs = some n
  sign : n.negative = negative
  value : n.value = (if negative then -1 else 1) * s.value
  plain : 'e' ∉ cs ↔ -7 < s.exponent ∧ s.exponent < 21

theorem Normal.exists_said (h : s.Normal) (negative : Bool) :
    ∃ n, s.Said negative (signChars negative ++ s.text) n := by
  obtain ⟨n, hn⟩ := exists_laidOut h.ne_nil negative
  have hchars := hn.chars_eq h.ne_nil
  have hproper := hn.proper h
  exact ⟨n, hn, hchars, hchars ▸ hproper.read_chars, hn.negative_eq, hn.value_eq,
    by rw [hchars, hproper.exponent_not_mem_iff, hn.exponent_eq_zero_iff]⟩

end Scientific

end LiveMarkup.Decimal
