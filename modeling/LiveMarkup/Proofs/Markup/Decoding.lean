import LiveMarkup.Proofs.Markup.Escaping
import LiveMarkup.Proofs.Text.Cuts
import Mathlib.Data.Nat.Digits.Lemmas

set_option autoImplicit false

/-!
What decoding comes to, said by the references of a text and not by a scan: a text is rewritten
from left to right, a reference to its character and everything else to itself. The scan agrees
with this on every text, if a number may be written behind a plus sign; without such numbers it
does so on the texts that hold none of them, and on no other. The search for the `;` counts bytes,
and the last part shows that every offset it finds lies between two characters.
-/

namespace LiveMarkup.Markup.CharacterReference

open Text

variable {c : Char} {d n base : Nat} {sign cs body s rest out p q : List Char}

/-- The digits 0 to 9, and 10 to 15 as letters of either case. -/
def IsDigit (c : Char) (d : Nat) : Prop :=
  d < 10 ∧ c.toNat = '0'.toNat + d ∨
    10 ≤ d ∧ d < 16 ∧ (c.toNat + 10 = 'a'.toNat + d ∨ c.toNat + 10 = 'A'.toNat + d)

instance (c : Char) (d : Nat) : Decidable (IsDigit c d) := inferInstanceAs (Decidable (_ ∨ _))

/-- At least one digit in `base`, and the number that the digits write, the last one being the
units. -/
def Writes (base : Nat) (cs : List Char) (n : Nat) : Prop :=
  ∃ ds : List Nat, ds ≠ [] ∧ List.Forall₂ IsDigit cs ds ∧ (∀ d ∈ ds, d < base) ∧
    n = Nat.ofDigits base ds.reverse

/-- The character of a number. Zero, the surrogates and what lies beyond U+10FFFF have none, and
U+FFFD stands for them. -/
def Denotes (n : Nat) (c : Char) : Prop :=
  if n = 0 ∨ (0xD800 ≤ n ∧ n ≤ 0xDFFF) ∨ 0x10FFFF < n then c = '\ufffd' else c.toNat = n

inductive Named : List Char → Char → Prop where
  | amp : Named ['a', 'm', 'p'] '&'
  | lt : Named ['l', 't'] '<'
  | gt : Named ['g', 't'] '>'
  | quot : Named ['q', 'u', 'o', 't'] '"'
  | apos : Named ['a', 'p', 'o', 's'] '\''
  | nbsp : Named ['n', 'b', 's', 'p'] '\u00a0'

/-- A numeric reference whose digits stand behind `sign`. -/
inductive Numeric (sign : List Char) : List Char → Nat → Prop where
  | decimal {cs : List Char} {n : Nat} : Writes 10 cs n → Numeric sign ('#' :: (sign ++ cs)) n
  | hexadecimal {x : Char} {cs : List Char} {n : Nat} :
      x = 'x' ∨ x = 'X' → Writes 16 cs n → Numeric sign ('#' :: x :: (sign ++ cs)) n

/-- The well-formed references. -/
def StandsFor (body : List Char) (c : Char) : Prop :=
  Named body c ∨ ∃ n, Numeric [] body n ∧ Denotes n c

/-- A number behind a plus sign, which is no digit. -/
def Signed (body : List Char) (c : Char) : Prop := ∃ n, Numeric ['+'] body n ∧ Denotes n c

/-- What is read as a reference. -/
def Accepted (body : List Char) (c : Char) : Prop := StandsFor body c ∨ Signed body c

/-- A reference of `R` behind an `&`, with at most ten bytes in front of its `;`. -/
def Begins (R : List Char → Char → Prop) (s : List Char) : Prop :=
  ∃ body rest c, s = body ++ ';' :: rest ∧ byteSize body ≤ 10 ∧ R body c

/-- A text and what it is rewritten to from left to right, when the bodies in `R` stand for
characters. -/
inductive Decodes (R : List Char → Char → Prop) : List Char → List Char → Prop where
  | nil : Decodes R [] []
  | reference {body rest out : List Char} {c : Char} : byteSize body ≤ 10 → R body c →
      Decodes R rest out → Decodes R ('&' :: (body ++ ';' :: rest)) (c :: out)
  | ampersand {s out : List Char} : ¬ Begins R s → Decodes R s out →
      Decodes R ('&' :: s) ('&' :: out)
  | other {c : Char} {s out : List Char} : c ≠ '&' → Decodes R s out →
      Decodes R (c :: s) (c :: out)

/-- Somewhere in the text a signed number is written as a reference. -/
def HoldsSigned (s : List Char) : Prop := ∃ p q, s = p ++ '&' :: q ∧ Begins Signed q

/-! ## Digits and numbers -/

theorem digitValue_eq_some_iff : digitValue c = some d ↔ IsDigit c d := by
  have h09 : c.isDigit = true ↔ 48 ≤ c.toNat ∧ c.toNat ≤ 57 := by
    simp [Char.isDigit, UInt32.le_iff_toNat_le]
  have haf : ('a' ≤ c && c ≤ 'f') = true ↔ 97 ≤ c.toNat ∧ c.toNat ≤ 102 := by
    simp [Char.le_def, UInt32.le_iff_toNat_le]
  have hAF : ('A' ≤ c && c ≤ 'F') = true ↔ 65 ≤ c.toNat ∧ c.toNat ≤ 70 := by
    simp [Char.le_def, UInt32.le_iff_toNat_le]
  have h0 : '0'.toNat = 48 := rfl
  have ha : 'a'.toNat = 97 := rfl
  have hA : 'A'.toNat = 65 := rfl
  unfold digitValue IsDigit
  split_ifs with hdigit hlower hupper <;>
    simp only [h09, haf, hAF, h0, ha, hA, Option.some.injEq, false_iff] at * <;> omega

theorem readDigits_eq_some_iff {m : Nat} :
    readDigits base m cs = some n ↔ ∃ ds : List Nat, List.Forall₂ IsDigit cs ds ∧
      (∀ d ∈ ds, d < base) ∧ n = m * base ^ ds.length + Nat.ofDigits base ds.reverse := by
  induction cs generalizing m with
  | nil => simp [readDigits, eq_comm]
  | cons c cs ih =>
    have hcons (d : Nat) (ds : List Nat) :
        m * base ^ (d :: ds).length + Nat.ofDigits base (d :: ds).reverse =
          (m * base + d) * base ^ ds.length + Nat.ofDigits base ds.reverse := by
      simp only [List.length_cons, List.reverse_cons, Nat.ofDigits_append, List.length_reverse,
        Nat.ofDigits_singleton]
      ring
    constructor
    · intro h
      rw [readDigits] at h
      split at h
      next d hd =>
        split at h
        next hlt =>
          obtain ⟨ds, hds, hall, rfl⟩ := ih.1 h
          exact ⟨d :: ds, .cons (digitValue_eq_some_iff.1 hd) hds,
            List.forall_mem_cons.2 ⟨hlt, hall⟩, (hcons d ds).symm⟩
        next => cases h
      next => cases h
    · rintro ⟨_, _ | ⟨hd, hds⟩, hall, rfl⟩
      rename_i d ds
      obtain ⟨hlt, hall⟩ := List.forall_mem_cons.1 hall
      rw [readDigits, digitValue_eq_some_iff.2 hd]
      simp only [hlt, if_true]
      exact ih.2 ⟨ds, hds, hall, hcons d ds⟩

theorem readDigits_zero_eq_some_iff (h : cs ≠ []) :
    readDigits base 0 cs = some n ↔ Writes base cs n := by
  rw [readDigits_eq_some_iff]
  simp only [Nat.zero_mul, Nat.zero_add]
  refine exists_congr fun ds => ⟨fun hds => ⟨?_, hds⟩, fun hds => hds.2⟩
  rintro rfl
  exact h (List.forall₂_nil_right_iff.1 hds.1)

theorem Writes.cons (h : Writes base cs n) :
    ∃ c cs' d, cs = c :: cs' ∧ digitValue c = some d ∧ d < base := by
  obtain ⟨_, hne, _ | ⟨hd, -⟩, hall, -⟩ := h
  · exact absurd rfl hne
  · exact ⟨_, _, _, rfl, digitValue_eq_some_iff.2 hd, hall _ List.mem_cons_self⟩

theorem Writes.isDigit (h : Writes base cs n) (hc : c ∈ cs) : ∃ d, digitValue c = some d := by
  obtain ⟨ds, -, hds, -, -⟩ := h
  obtain ⟨i, hi, rfl⟩ := List.getElem_of_mem hc
  exact ⟨_, digitValue_eq_some_iff.2 (hds.get hi (hds.length_eq ▸ hi))⟩

theorem readNumber_eq_some_iff :
    readNumber base cs = some n ↔
      ∃ sign ds, (sign = [] ∨ sign = ['+']) ∧ cs = sign ++ ds ∧ Writes base ds n := by
  constructor
  · intro h
    unfold readNumber at h
    split at h
    · cases h
    · cases h
    · next ds hne =>
      exact ⟨['+'], ds, .inr rfl, rfl, (readDigits_zero_eq_some_iff fun he => hne (by rw [he])).1 h⟩
    · next hnil _ _ => exact ⟨[], cs, .inl rfl, rfl, (readDigits_zero_eq_some_iff hnil).1 h⟩
  · rintro ⟨_, ds, rfl | rfl, rfl, h⟩
    · obtain ⟨c, cs, d, rfl, hd, -⟩ := h.cons
      have hplus : c ≠ '+' := by
        rintro rfl
        cases hd
      rw [readNumber, readDigits_zero_eq_some_iff (by simp)]
      · exact h
      · simp
      · simp [hplus]
      · simp [hplus]
    · obtain ⟨c, cs, d, rfl, hd, -⟩ := h.cons
      rw [List.singleton_append, readNumber, readDigits_zero_eq_some_iff (by simp)]
      · exact h
      · simp

theorem ofNumber_eq_iff : ofNumber n = c ↔ Denotes n c := by
  have hvalid : n.isValidChar ↔ n < 0xD800 ∨ 0xDFFF < n ∧ n < 0x110000 := Iff.rfl
  unfold ofNumber Denotes
  split_ifs with h hout hout
  · omega
  · constructor
    · rintro rfl
      rw [Char.ofNat, dif_pos h.2]
      rfl
    · rintro rfl
      exact Char.ofNat_toNat c
  · exact eq_comm
  · omega

/-! ## Bodies -/

theorem named_of_lookup (h : named.lookup body = some c) : Named body c := by
  obtain ⟨l₁, l₂, he, -⟩ := List.lookup_eq_some_iff.1 h
  have hmem : (body, c) ∈ named := by simp [he]
  simp only [named, List.mem_cons, List.not_mem_nil, or_false, Prod.mk.injEq] at hmem
  rcases hmem with ⟨rfl, rfl⟩ | ⟨rfl, rfl⟩ | ⟨rfl, rfl⟩ | ⟨rfl, rfl⟩ | ⟨rfl, rfl⟩ | ⟨rfl, rfl⟩
  exacts [.amp, .lt, .gt, .quot, .apos, .nbsp]

theorem map_ofNumber_eq_some_iff :
    (readNumber base cs).map ofNumber = some c ↔ ∃ sign ds n, (sign = [] ∨ sign = ['+']) ∧
      cs = sign ++ ds ∧ Writes base ds n ∧ Denotes n c := by
  simp only [Option.map_eq_some_iff, readNumber_eq_some_iff, ofNumber_eq_iff]
  constructor
  · rintro ⟨n, ⟨sign, ds, hsign, rfl, hds⟩, hc⟩
    exact ⟨sign, ds, n, hsign, rfl, hds, hc⟩
  · rintro ⟨sign, ds, n, hsign, rfl, hds, hc⟩
    exact ⟨n, ⟨sign, ds, hsign, rfl, hds⟩, hc⟩

theorem accepted_iff : Accepted body c ↔ Named body c ∨
    ∃ sign n, (sign = [] ∨ sign = ['+']) ∧ Numeric sign body n ∧ Denotes n c := by
  unfold Accepted StandsFor Signed
  constructor
  · rintro ((h | ⟨n, hn, hc⟩) | ⟨n, hn, hc⟩)
    · exact .inl h
    · exact .inr ⟨_, n, .inl rfl, hn, hc⟩
    · exact .inr ⟨_, n, .inr rfl, hn, hc⟩
  · rintro (h | ⟨_, n, rfl | rfl, hn, hc⟩)
    · exact .inl (.inl h)
    · exact .inl (.inr ⟨n, hn, hc⟩)
    · exact .inr ⟨n, hn, hc⟩

theorem ofBody_hexadecimal {x : Char} (hx : x = 'x' ∨ x = 'X') (cs : List Char) :
    ofBody ('#' :: x :: cs) = (readNumber 16 cs).map ofNumber := by
  rcases hx with rfl | rfl <;> rw [ofBody]

theorem ofBody_decimal (h : Writes 10 cs n) (hsign : sign = [] ∨ sign = ['+']) :
    ofBody ('#' :: (sign ++ cs)) = (readNumber 10 (sign ++ cs)).map ofNumber := by
  obtain ⟨c, cs, d, rfl, hd, hlt⟩ := h.cons
  have hne (x : Char) (hx : digitValue x = none) (hplus : x ≠ '+') (t : List Char) :
      sign ++ c :: cs ≠ x :: t := by
    rintro he
    rcases hsign with rfl | rfl
    · cases he
      cases hx.symm.trans hd
    · exact hplus (List.head_eq_of_cons_eq he).symm
  rw [ofBody]
  · exact hne 'x' rfl (by decide)
  · exact hne 'X' rfl (by decide)

theorem ofBody_eq_some_iff : ofBody body = some c ↔ Accepted body c := by
  rw [accepted_iff]
  constructor
  · intro h
    unfold ofBody at h
    split at h
    · obtain ⟨sign, ds, n, hsign, rfl, hds, hc⟩ := map_ofNumber_eq_some_iff.1 h
      exact .inr ⟨sign, n, hsign, .hexadecimal (.inl rfl) hds, hc⟩
    · obtain ⟨sign, ds, n, hsign, rfl, hds, hc⟩ := map_ofNumber_eq_some_iff.1 h
      exact .inr ⟨sign, n, hsign, .hexadecimal (.inr rfl) hds, hc⟩
    · obtain ⟨sign, ds, n, hsign, rfl, hds, hc⟩ := map_ofNumber_eq_some_iff.1 h
      exact .inr ⟨sign, n, hsign, .decimal hds, hc⟩
    · exact .inl (named_of_lookup h)
  · rintro (h | ⟨sign, n, hsign, hn, hc⟩)
    · cases h <;> rfl
    · cases hn with
      | decimal hds =>
        rw [ofBody_decimal hds hsign]
        exact map_ofNumber_eq_some_iff.2 ⟨sign, _, n, hsign, rfl, hds, hc⟩
      | hexadecimal hx hds =>
        rw [ofBody_hexadecimal hx]
        exact map_ofNumber_eq_some_iff.2 ⟨sign, _, n, hsign, rfl, hds, hc⟩

/-- A reference holds neither the `;` that ends it nor another `&`. -/
theorem Accepted.plain (h : Accepted body c) : ∀ x ∈ body, x ≠ ';' ∧ x ≠ '&' := by
  have hsign {sign : List Char} (hs : sign = [] ∨ sign = ['+']) :
      ∀ x ∈ sign, x ≠ ';' ∧ x ≠ '&' := by
    rcases hs with rfl | rfl <;> simp
  have hdigits {base n : Nat} {cs : List Char} (hw : Writes base cs n) :
      ∀ x ∈ cs, x ≠ ';' ∧ x ≠ '&' := by
    intro x hx
    obtain ⟨d, hd⟩ := hw.isDigit hx
    constructor <;> rintro rfl <;> cases hd
  rcases accepted_iff.1 h with hnamed | ⟨sign, n, hs, hn, -⟩
  · cases hnamed <;> simp
  · cases hn with
    | decimal hw =>
      exact List.forall_mem_cons.2 ⟨by decide, List.forall_mem_append.2 ⟨hsign hs, hdigits hw⟩⟩
    | hexadecimal hx hw =>
      refine List.forall_mem_cons.2 ⟨by decide, List.forall_mem_cons.2
        ⟨?_, List.forall_mem_append.2 ⟨hsign hs, hdigits hw⟩⟩⟩
      rcases hx with rfl | rfl <;> decide

theorem Accepted.not_mem (h : Accepted body c) : ';' ∉ body := fun hmem => (h.plain _ hmem).1 rfl

/-- A numeric reference of at most ten bytes fits into 32 bits. -/
theorem Numeric.lt (h : Numeric sign body n) (hsize : byteSize body ≤ 10) : n < 2 ^ 32 := by
  have hbound {base : Nat} {cs : List Char} (hbase : 1 < base) (hw : Writes base cs n) :
      n < base ^ byteSize cs := by
    obtain ⟨ds, -, hds, hall, rfl⟩ := hw
    refine (Nat.ofDigits_lt_base_pow_length hbase fun d hd => hall d (by simpa using hd)).trans_le
      (Nat.pow_le_pow_right (by omega) ?_)
    rw [List.length_reverse, ← hds.length_eq]
    exact length_le_byteSize cs
  have hhash : '#'.utf8Size = 1 := rfl
  cases h with
  | @decimal cs _ hw =>
    simp only [byteSize_cons, byteSize_append, hhash] at hsize
    calc n < 10 ^ byteSize cs := hbound (by decide) hw
      _ ≤ 10 ^ 9 := Nat.pow_le_pow_right (by decide) (by omega)
      _ < 2 ^ 32 := by decide
  | @hexadecimal x cs _ hx hw =>
    have hone := x.utf8Size_pos
    simp only [byteSize_cons, byteSize_append, hhash] at hsize
    calc n < 16 ^ byteSize cs := hbound (by decide) hw
      _ ≤ 16 ^ 8 := Nat.pow_le_pow_right (by decide) (by omega)
      _ = 2 ^ 32 := by decide

/-! ## The search for the end -/

/-- A body is read up to the first `;`, if it takes at most ten bytes. -/
theorem read_eq_some_iff : read s = some (c, rest) ↔
    ∃ body, s = body ++ ';' :: rest ∧ ';' ∉ body ∧ byteSize body ≤ longestBody ∧
      ofBody body = some c := by
  constructor
  · intro h
    simp only [read] at h
    set body := (s.take (longestBody + 1)).takeWhile (· != ';')
    have hsplit : body ++ s.drop body.length = s :=
      List.prefix_iff_eq_append.1 ((List.takeWhile_prefix _).trans (List.take_prefix _ _))
    split at h
    next hsize =>
      split at h
      next rest' hdrop =>
        obtain ⟨c', hc, he⟩ := Option.map_eq_some_iff.1 h
        cases he
        refine ⟨body, by rw [← hdrop, hsplit], ?_, hsize, hc⟩
        intro hmem
        simpa using List.all_eq_true.1 List.all_takeWhile _ hmem
      next => cases h
    next => cases h
  · rintro ⟨body, rfl, hmem, hsize, hc⟩
    have hlength := (length_le_byteSize body).trans hsize
    have hbody : ((body ++ ';' :: rest).take (longestBody + 1)).takeWhile (· != ';') = body := by
      rw [List.take_append, List.take_of_length_le (by omega),
        Nat.sub_add_comm hlength, List.take_succ_cons,
        List.takeWhile_append_of_pos, List.takeWhile_cons_of_neg (by simp), List.append_nil]
      intro x hx
      simp only [bne_iff_ne, ne_eq]
      rintro rfl
      exact hmem hx
    simp only [read, hbody, if_pos hsize, List.drop_left, hc, Option.map_some]

/-- The offset of the `;` among the first bytes of a text. -/
def endOfBody (s : List Char) : Option Nat :=
  ((s.flatMap String.utf8EncodeChar).take (longestBody + 1)).findIdx? (· == 0x3b)

/-- No part of a longer character is the byte of a `;`. -/
theorem semicolon_mem_utf8EncodeChar : (0x3b : UInt8) ∈ String.utf8EncodeChar c ↔ c = ';' := by
  have hone {n : Nat} : (0x3b : UInt8) = UInt8.ofNat n ↔ n % 256 = 59 := by
    rw [UInt8.ext_iff, UInt8.toNat_ofNat', eq_comm]
    rfl
  have hval : c = ';' ↔ c.val.toNat = 59 := by
    rw [← Char.toNat_inj]
    rfl
  simp only [String.utf8EncodeChar]
  split_ifs <;> simp only [List.mem_cons, List.not_mem_nil, or_false, hone, hval] <;> omega

theorem semicolon_mem_bytes :
    (0x3b : UInt8) ∈ s.flatMap String.utf8EncodeChar ↔ ';' ∈ s := by
  simp [List.mem_flatMap, semicolon_mem_utf8EncodeChar]

theorem length_bytes (s : List Char) : (s.flatMap String.utf8EncodeChar).length = byteSize s := by
  induction s with
  | nil => rfl
  | cons c s ih =>
    rw [List.flatMap_cons, List.length_append, String.length_utf8EncodeChar, ih, byteSize_cons]

/-- The search over bytes ends at the first `;` of the text, and at a `;` only. -/
theorem endOfBody_eq_some_iff {size : Nat} : endOfBody s = some size ↔
    ∃ body rest, s = body ++ ';' :: rest ∧ ';' ∉ body ∧ byteSize body = size ∧
      size ≤ longestBody := by
  have hnone {cs : List Char} (h : ';' ∉ cs) :
      (cs.flatMap String.utf8EncodeChar).findIdx? (· == 0x3b) = none := by
    rw [List.findIdx?_eq_none_iff]
    intro b hb
    rw [beq_eq_false_iff_ne]
    rintro rfl
    exact h (semicolon_mem_bytes.1 hb)
  have hsome {body rest : List Char} (h : ';' ∉ body) :
      ((body ++ ';' :: rest).flatMap String.utf8EncodeChar).findIdx? (· == 0x3b) =
        some (byteSize body) := by
    have hsemi : String.utf8EncodeChar ';' = [0x3b] := by decide
    rw [List.flatMap_append, List.findIdx?_append, hnone h, List.flatMap_cons, hsemi,
      length_bytes]
    simp [List.findIdx?_cons]
  rw [endOfBody, List.findIdx?_take]
  constructor
  · intro h
    by_cases hmem : ';' ∈ s
    · obtain ⟨body, rest, rfl, hbody⟩ := List.eq_append_cons_of_mem hmem
      rw [hsome hbody] at h
      obtain ⟨rfl, hlt⟩ : byteSize body = size ∧ byteSize body < longestBody + 1 := by
        simpa [Option.guard, and_comm] using h
      exact ⟨body, rest, rfl, hbody, rfl, Nat.le_of_lt_succ hlt⟩
    · rw [hnone hmem] at h
      cases h
  · rintro ⟨body, rest, rfl, hbody, rfl, hle⟩
    rw [hsome hbody]
    simpa [Option.guard] using Nat.lt_succ_of_le hle

/-- The place between two parts of a text lies between two characters. -/
theorem isValid_of_append {s : String} (h : s.toList = p ++ q) :
    String.Pos.Raw.IsValid s ⟨byteSize p⟩ := by
  refine String.Pos.Raw.isValid_iff_exists_append.2
    ⟨String.ofList p, String.ofList q, ?_, ?_⟩
  · rw [← String.ofList_append, ← h, String.ofList_toList]
  · rw [← String.toList_ofList (l := p), byteSize_toList, String.toList_ofList]
    rfl

/-- The search behind an `&` and what is cut out by it. Each offset is counted in bytes from the
start of the text and is the place between two characters; nothing is read but the characters
between the two last places. -/
structure Cuts (s : String) (p q : List Char) : Prop where
  text : s.toList = p ++ '&' :: q
  before : String.Pos.Raw.IsValid s ⟨byteSize p⟩
  behind : String.Pos.Raw.IsValid s ⟨byteSize p + 1⟩
  ended : ∀ size, endOfBody q = some size →
    String.Pos.Raw.IsValid s ⟨byteSize p + 1 + size⟩ ∧
      String.Pos.Raw.IsValid s ⟨byteSize p + 1 + size + 1⟩
  reads : ∀ c rest, read q = some (c, rest) ↔ ∃ body, q = body ++ ';' :: rest ∧
    endOfBody q = some (byteSize body) ∧ Accepted body c

theorem cuts {s : String} (h : s.toList = p ++ '&' :: q) : Cuts s p q where
  text := h
  before := isValid_of_append h
  behind := by
    have := isValid_of_append (s := s) (p := p ++ ['&']) (q := q) (by simp [h])
    simpa [show '&'.utf8Size = 1 from rfl] using this
  ended := by
    intro size hsize
    obtain ⟨body, rest, rfl, -, rfl, -⟩ := endOfBody_eq_some_iff.1 hsize
    have hend := isValid_of_append (s := s) (p := p ++ '&' :: body) (q := ';' :: rest) (by simp [h])
    have hbehind := isValid_of_append (s := s) (p := p ++ '&' :: (body ++ [';'])) (q := rest)
      (by simp [h])
    simp only [byteSize_append, byteSize_cons, byteSize_nil, show '&'.utf8Size = 1 from rfl,
      show ';'.utf8Size = 1 from rfl, Nat.add_zero, ← Nat.add_assoc] at hend hbehind
    exact ⟨hend, hbehind⟩
  reads := by
    intro c rest
    rw [read_eq_some_iff]
    constructor
    · rintro ⟨body, rfl, hmem, hsize, hc⟩
      exact ⟨body, rfl, endOfBody_eq_some_iff.2 ⟨body, rest, rfl, hmem, rfl, hsize⟩,
        ofBody_eq_some_iff.1 hc⟩
    · rintro ⟨body, rfl, hend, hc⟩
      obtain ⟨-, -, -, -, -, hsize⟩ := endOfBody_eq_some_iff.1 hend
      exact ⟨body, rfl, hc.not_mem, hsize, ofBody_eq_some_iff.2 hc⟩

/-! ## Rewriting -/

theorem read_of_accepted (hsize : byteSize body ≤ 10) (h : Accepted body c) :
    read (body ++ ';' :: rest) = some (c, rest) :=
  read_eq_some_iff.2 ⟨body, rfl, h.not_mem, hsize, ofBody_eq_some_iff.2 h⟩

theorem read_eq_none_iff : read s = none ↔ ¬ Begins Accepted s := by
  constructor
  · rintro hnone ⟨body, rest, c, rfl, hsize, hc⟩
    cases hnone.symm.trans (read_of_accepted hsize hc)
  · intro hnot
    refine Option.eq_none_iff_forall_ne_some.2 fun ⟨c, rest⟩ hread => hnot ?_
    obtain ⟨body, rfl, -, hsize, hc⟩ := read_eq_some_iff.1 hread
    exact ⟨body, rest, c, rfl, hsize, ofBody_eq_some_iff.1 hc⟩

theorem decodeChars_of_read_none (h : read s = none) :
    decodeChars ('&' :: s) = '&' :: decodeChars s := by
  rw [decodeChars]
  split
  · next h' => cases h.symm.trans h'
  · rfl

theorem decodes_decodeChars (s : List Char) : Decodes Accepted s (decodeChars s) := by
  fun_induction decodeChars s with
  | case1 => exact .nil
  | case2 s c rest h ih =>
    obtain ⟨body, rfl, -, hsize, hc⟩ := read_eq_some_iff.1 h
    exact .reference hsize (ofBody_eq_some_iff.1 hc) ih
  | case3 s h ih => exact .ampersand (read_eq_none_iff.1 h) ih
  | case4 c s hc ih => exact .other hc ih

theorem Decodes.eq_decodeChars (h : Decodes Accepted s out) : out = decodeChars s := by
  induction h with
  | nil => rw [decodeChars]
  | reference hsize hc _ ih => rw [decodeChars_of_read (read_of_accepted hsize hc), ih]
  | ampersand hnot _ ih => rw [decodeChars_of_read_none (read_eq_none_iff.2 hnot), ih]
  | other hc _ ih => rw [decodeChars_cons hc, ih]

theorem decodes_accepted_iff : Decodes Accepted s out ↔ out = decodeChars s :=
  ⟨Decodes.eq_decodeChars, fun h => h ▸ decodes_decodeChars s⟩

/-! ## Signed numbers -/

theorem holdsSigned_cons :
    HoldsSigned (c :: s) ↔ c = '&' ∧ Begins Signed s ∨ HoldsSigned s := by
  constructor
  · rintro ⟨_ | ⟨c', p⟩, q, he, hq⟩
    · cases he
      exact .inl ⟨rfl, hq⟩
    · cases he
      exact .inr ⟨p, q, rfl, hq⟩
  · rintro (⟨rfl, hq⟩ | ⟨p, q, rfl, hq⟩)
    · exact ⟨[], s, rfl, hq⟩
    · exact ⟨c :: p, q, rfl, hq⟩

theorem holdsSigned_append (h : '&' ∉ p) : HoldsSigned (p ++ q) ↔ HoldsSigned q := by
  induction p with
  | nil => rfl
  | cons c p ih =>
    rw [List.mem_cons, not_or] at h
    obtain ⟨hc, hp⟩ := h
    rw [List.cons_append, holdsSigned_cons, ih hp]
    simp [Ne.symm hc]

theorem decodeChars_append (h : '&' ∉ p) : decodeChars (p ++ q) = p ++ decodeChars q := by
  induction p with
  | nil => rfl
  | cons c p ih =>
    rw [List.mem_cons, not_or] at h
    obtain ⟨hc, hp⟩ := h
    rw [List.cons_append, decodeChars_cons (Ne.symm hc), ih hp, List.cons_append]

theorem Signed.plus_mem (h : Signed body c) : '+' ∈ body := by
  obtain ⟨n, hn, -⟩ := h
  cases hn <;> simp

/-- A plus sign is part of no well-formed reference. -/
theorem StandsFor.plus_not_mem (h : StandsFor body c) : '+' ∉ body := by
  have hdigits {base n : Nat} {cs : List Char} (hw : Writes base cs n) : '+' ∉ cs := by
    intro hmem
    obtain ⟨d, hd⟩ := hw.isDigit hmem
    cases hd
  rcases h with hnamed | ⟨n, hn, -⟩
  · cases hnamed <;> simp
  · cases hn with
    | decimal hw => simp [hdigits hw]
    | hexadecimal hx hw => rcases hx with rfl | rfl <;> simp [hdigits hw]

theorem not_holdsSigned (h : '+' ∉ s) : ¬ HoldsSigned s := by
  rintro ⟨p, q, rfl, body, rest, c, rfl, -, hc⟩
  have := hc.plus_mem
  simp_all

theorem Accepted.amp_not_mem (h : Accepted body c) : '&' ∉ body :=
  fun hmem => (h.plain _ hmem).2 rfl

/-- A signed number of the text stands behind a reference, not in it. -/
theorem HoldsSigned.of_reference (hsize : byteSize body ≤ 10) (hc : StandsFor body c)
    (h : HoldsSigned ('&' :: (body ++ ';' :: rest))) : HoldsSigned rest := by
  rcases holdsSigned_cons.1 h with ⟨-, body', rest', c', he, hsize', hc'⟩ | h
  · -- the signed number would be the reference itself
    have hread : read (body' ++ ';' :: rest') = some (c', rest') :=
      read_of_accepted hsize' (.inr hc')
    rw [← he, read_of_accepted hsize (.inl hc)] at hread
    cases hread
    obtain rfl := List.append_cancel_right he
    exact absurd hc'.plus_mem hc.plus_not_mem
  · have := (holdsSigned_append (Accepted.amp_not_mem (.inl hc))).1 h
    simpa [holdsSigned_cons] using this

theorem HoldsSigned.of_ampersand (hnot : ¬ Begins Accepted s) (h : HoldsSigned ('&' :: s)) :
    HoldsSigned s := by
  refine (holdsSigned_cons.1 h).resolve_left ?_
  rintro ⟨-, body, rest, c, he, hsize, hc⟩
  exact hnot ⟨body, rest, c, he, hsize, .inr hc⟩

/-- Reading signed numbers as well makes the outcome shorter wherever there is one. -/
theorem Decodes.length_le (h : Decodes StandsFor s out) :
    (decodeChars s).length ≤ out.length ∧
      (HoldsSigned s → (decodeChars s).length < out.length) := by
  induction h with
  | nil =>
    refine ⟨by rw [decodeChars], ?_⟩
    rintro ⟨p, q, he, -⟩
    simp at he
  | reference hsize hc _ ih =>
    rw [decodeChars_of_read (read_of_accepted hsize (.inl hc)), List.length_cons, List.length_cons]
    exact ⟨Nat.succ_le_succ ih.1, fun hs => Nat.succ_lt_succ (ih.2 (hs.of_reference hsize hc))⟩
  | @ampersand s out hnot _ ih =>
    by_cases hb : Begins Accepted s
    · -- a signed number: it is read as one character here and copied there
      obtain ⟨body, rest, c, rfl, hsize, hc⟩ := hb
      have hle := ih.1
      rw [decodeChars_append hc.amp_not_mem, decodeChars_cons (by decide)] at hle
      rw [decodeChars_of_read (read_of_accepted hsize hc)]
      simp only [List.length_append, List.length_cons] at hle ⊢
      exact ⟨by omega, fun _ => by omega⟩
    · rw [decodeChars_of_read_none (read_eq_none_iff.2 hb), List.length_cons, List.length_cons]
      exact ⟨Nat.succ_le_succ ih.1, fun hs => Nat.succ_lt_succ (ih.2 (hs.of_ampersand hb))⟩
  | other hc _ ih =>
    rw [decodeChars_cons hc, List.length_cons, List.length_cons, holdsSigned_cons]
    refine ⟨Nat.succ_le_succ ih.1, fun hs => Nat.succ_lt_succ (ih.2 ?_)⟩
    exact hs.resolve_left fun hamp => hc hamp.1

theorem Decodes.standsFor (h : Decodes Accepted s out) (hs : ¬ HoldsSigned s) :
    Decodes StandsFor s out := by
  induction h with
  | nil => exact .nil
  | @reference body rest out c hsize hc _ ih =>
    rw [holdsSigned_cons, not_or] at hs
    obtain ⟨hhere, hlater⟩ := hs
    refine .reference hsize (hc.resolve_right fun hsigned => hhere ?_) (ih fun hr => hlater ?_)
    · exact ⟨rfl, body, rest, c, rfl, hsize, hsigned⟩
    · rw [holdsSigned_append hc.amp_not_mem, holdsSigned_cons]
      exact .inr hr
  | ampersand hnot _ ih =>
    rw [holdsSigned_cons, not_or] at hs
    refine .ampersand ?_ (ih hs.2)
    rintro ⟨body, rest, c, he, hsize, hc⟩
    exact hnot ⟨body, rest, c, he, hsize, .inl hc⟩
  | other hc _ ih =>
    rw [holdsSigned_cons, not_or] at hs
    exact .other hc (ih hs.2)

theorem decodes_standsFor_iff : Decodes StandsFor s (decodeChars s) ↔ ¬ HoldsSigned s :=
  ⟨fun h hs => Nat.lt_irrefl _ (h.length_le.2 hs), (decodes_decodeChars s).standsFor⟩

theorem toList_decode (s : String) : (decode s).toList = decodeChars s.toList :=
  String.toList_ofList

/-- Decoding is the rewriting of a text from left to right in which a reference becomes its
character. It is the rewriting by the well-formed references alone exactly on the texts where no
number is written behind a plus sign. A numeric reference fits into 32 bits, and the search for
the end of a reference cuts between characters only. -/
theorem decode_rewrites (s : String) :
    (∀ out : String, Decodes Accepted s.toList out.toList ↔ out = decode s) ∧
      (Decodes StandsFor s.toList (decode s).toList ↔ ¬ HoldsSigned s.toList) ∧
      (∀ sign body n, Numeric sign body n → byteSize body ≤ 10 → n < 2 ^ 32) ∧
      ∀ p q, s.toList = p ++ '&' :: q → Cuts s p q := by
  refine ⟨fun out => ?_, ?_, fun sign body n => Numeric.lt, fun p q => cuts⟩
  · rw [decodes_accepted_iff, ← toList_decode, String.toList_inj]
  · rw [toList_decode]
    exact decodes_standsFor_iff

theorem decode_rewrites_accented : Cuts "é&#x42;&" ['é'] ['#', 'x', '4', '2', ';', '&'] ∧
    Decodes StandsFor "é&#x42;&".toList (decode "é&#x42;&").toList :=
  ⟨(decode_rewrites _).2.2.2 _ _ rfl, (decode_rewrites _).2.1.2 (not_holdsSigned (by decide))⟩

/-- A plus sign in front of the digits is read as part of the number. -/
theorem decode_signed :
    ¬ Decodes StandsFor "&#+65;".toList (decode "&#+65;").toList := by
  rw [toList_decode, decodes_standsFor_iff, not_not]
  exact ⟨[], ['#', '+', '6', '5', ';'], rfl, ['#', '+', '6', '5'], [], 'A', rfl, by decide, 65,
    .decimal ⟨[6, 5], by decide, .cons (by decide) (.cons (by decide) .nil), by decide, by decide⟩,
    by simp [Denotes]⟩

end LiveMarkup.Markup.CharacterReference
