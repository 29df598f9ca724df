import LiveMarkup.Text.Ascii

set_option autoImplicit false

/-!
Texts that are cut in two, and the sizes of the parts.
-/

namespace LiveMarkup.Text

/-- Two ways to cut a text. -/
theorem cut_cases {a d u v : List Char} (h : a ++ d = u ++ v) :
    (∃ a', a = u ++ a' ∧ v = a' ++ d) ∨ ∃ d', d' ≠ [] ∧ u = a ++ d' ∧ d = d' ++ v := by
  rcases List.append_eq_append_iff.1 h with ⟨d', rfl, rfl⟩ | ⟨a', rfl, rfl⟩
  · by_cases hnil : d' = []
    · subst hnil
      exact .inl ⟨[], by simp, by simp⟩
    · exact .inr ⟨d', hnil, rfl, rfl⟩
  · exact .inl ⟨a', rfl, rfl⟩

/-- All of a text but its last character. -/
theorem exists_of_append_singleton {a p q : List Char} {x : Char} (h : a ++ [x] = p ++ q)
    (hq : q ≠ []) : ∃ q', a = p ++ q' ∧ q = q' ++ [x] := by
  rcases cut_cases h with ⟨q', rfl, rfl⟩ | ⟨d, hd, rfl, hx⟩
  · exact ⟨q', rfl, rfl⟩
  · rcases List.append_eq_singleton_iff.1 hx.symm with ⟨rfl, -⟩ | ⟨-, rfl⟩
    · exact absurd rfl hd
    · exact absurd rfl hq

theorem byteSize_le_of_prefix {m cs : List Char} (h : m <+: cs) : byteSize m ≤ byteSize cs := by
  obtain ⟨t, rfl⟩ := h
  rw [byteSize_append]
  exact Nat.le_add_right _ _

theorem byteSize_pos {cs : List Char} (h : cs ≠ []) : 0 < byteSize cs := by
  obtain ⟨c, cs, rfl⟩ := List.exists_cons_of_ne_nil h
  rw [byteSize_cons]
  have := c.utf8Size_pos
  omega

theorem length_le_byteSize (cs : List Char) : cs.length ≤ byteSize cs := by
  induction cs with
  | nil => simp
  | cons c cs ih =>
    have := c.utf8Size_pos
    simp only [List.length_cons, byteSize_cons]
    omega

theorem byteSize_toList (s : String) : byteSize s.toList = s.utf8ByteSize := by
  have h (cs : List Char) : byteSize cs = (String.ofList cs).utf8ByteSize := by
    induction cs with
    | nil => rfl
    | cons c cs ih =>
      rw [byteSize_cons, ih]
      simp [String.ofList_cons]
  rw [h, String.ofList_toList]

theorem append_inj_of_byteSize {a b c d : List Char} (h : a ++ b = c ++ d)
    (hsize : byteSize a = byteSize c) : a = c ∧ b = d := by
  have hnil {e : List Char} (he : byteSize e = 0) : e = [] :=
    Decidable.byContradiction fun hne => Nat.ne_of_gt (byteSize_pos hne) he
  rcases List.append_eq_append_iff.1 h with ⟨e, rfl, rfl⟩ | ⟨e, rfl, rfl⟩
  all_goals
    rw [byteSize_append] at hsize
    obtain rfl : e = [] := hnil (by omega)
    simp

/-- A property of every cut of a text. -/
def AtCuts (cs : List Char) (P : List Char → List Char → Prop) : Prop :=
  ∀ p q, cs = p ++ q → P p q

instance (cs : List Char) (P : List Char → List Char → Prop) [∀ p q, Decidable (P p q)] :
    Decidable (AtCuts cs P) :=
  decidable_of_iff (∀ k < cs.length + 1, P (cs.take k) (cs.drop k)) (by
    constructor
    · rintro h p q rfl
      have hcut := h p.length (Nat.lt_succ_of_le (by simp))
      rwa [List.take_left, List.drop_left] at hcut
    · exact fun h k _ => h _ _ (List.take_append_drop k cs).symm)

end LiveMarkup.Text
