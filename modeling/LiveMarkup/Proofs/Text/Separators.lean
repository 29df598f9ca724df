import LiveMarkup.Text.Ascii
import Mathlib.Data.List.Infix

set_option autoImplicit false

/-!
Texts with separators between them. A separator that does not overlap itself is found where it was
written: the first occurrence is the one behind the first text, if that text does not hold it.
-/

namespace LiveMarkup.Text

/-- No proper end of a text is how the text begins, so two occurrences of it never overlap. -/
def Unbordered (s : List Char) : Prop := ∀ k < s.length, 0 < k → ¬ s.drop k <+: s

variable {sep f f' r r' : List Char}

/-- What stands in front of a separator is either the same or holds the separator. -/
theorem eq_nil_of_append_separator {a : List Char} (hsep : Unbordered sep)
    (hf : ¬ sep <:+: f ++ a) (h : sep ++ r = a ++ (sep ++ r')) : a = [] := by
  by_contra hne
  rcases List.prefix_or_prefix_of_prefix (List.prefix_append sep r)
    (h ▸ List.prefix_append a (sep ++ r')) with hsa | has
  · exact hf (hsa.isInfix.trans (List.suffix_append f a).isInfix)
  · obtain ⟨t, rfl⟩ := has
    have ht : t ++ r = a ++ t ++ r' := by simpa [List.append_assoc] using h
    have hpos : 0 < a.length := List.length_pos_iff.2 hne
    by_cases hnil : t = []
    · subst hnil
      exact hf (by simpa using (List.suffix_append f a).isInfix)
    · have htpos : 0 < t.length := List.length_pos_iff.2 hnil
      refine hsep a.length (by simp [htpos]) hpos ?_
      rw [List.drop_left]
      refine List.prefix_of_prefix_length_le (ht ▸ List.prefix_append t r)
        (List.prefix_append (a ++ t) r') (by simp)

theorem append_separator_inj (hsep : Unbordered sep) (hf : ¬ sep <:+: f) (hf' : ¬ sep <:+: f')
    (h : f ++ (sep ++ r) = f' ++ (sep ++ r')) : f = f' ∧ r = r' := by
  rcases List.append_eq_append_iff.1 h with ⟨a, rfl, ha⟩ | ⟨a, rfl, ha⟩
  · obtain rfl := eq_nil_of_append_separator hsep hf' ha
    exact ⟨by simp, by simpa using ha⟩
  · obtain rfl := eq_nil_of_append_separator hsep hf ha
    exact ⟨by simp, by simpa using ha.symm⟩

/-- Texts that do not hold the separator can be read off the text that they are joined to. -/
theorem intercalate_inj {fs gs : List (List Char)} (hsep : Unbordered sep)
    (hfs : ∀ f ∈ fs, ¬ sep <:+: f) (hgs : ∀ g ∈ gs, ¬ sep <:+: g) (hf : fs ≠ []) (hg : gs ≠ [])
    (h : sep.intercalate fs = sep.intercalate gs) : fs = gs := by
  induction fs generalizing gs with
  | nil => exact absurd rfl hf
  | cons f fs ih =>
    obtain ⟨g, gs, rfl⟩ := List.exists_cons_of_ne_nil hg
    have hfree := hfs f List.mem_cons_self
    have hfree' := hgs g List.mem_cons_self
    match fs, gs with
    | [], [] => simpa using h
    | [], g' :: gs =>
      rw [List.intercalate_singleton, List.intercalate_cons_cons] at h
      exact absurd ⟨g, _, h.symm⟩ hfree
    | f' :: fs, [] =>
      rw [List.intercalate_singleton, List.intercalate_cons_cons] at h
      exact absurd ⟨f, _, h⟩ hfree'
    | f' :: fs, g' :: gs =>
      rw [List.intercalate_cons_cons, List.intercalate_cons_cons, List.append_assoc,
        List.append_assoc] at h
      obtain ⟨rfl, hrest⟩ := append_separator_inj hsep hfree hfree' h
      rw [ih (fun x hx => hfs x (List.mem_cons_of_mem _ hx))
        (fun x hx => hgs x (List.mem_cons_of_mem _ hx)) (by simp) (by simp) hrest]

/-- What stands in front of the first occurrence of a separator does not hold it. -/
theorem not_infix_of_breakOn (hne : sep ≠ []) (h : breakOn sep f = some (f', r)) : ¬ sep <:+: f' := by
  induction f generalizing f' with
  | nil =>
    rw [breakOn, if_neg (by simpa using hne)] at h
    cases h
  | cons c f ih =>
    rw [breakOn] at h
    split at h
    · obtain ⟨rfl, -⟩ := Prod.mk.inj (Option.some.inj h)
      exact fun hinfix => hne (List.infix_nil.1 hinfix)
    · next hnot =>
      obtain ⟨⟨before, after⟩, hbreak, he⟩ := Option.map_eq_some_iff.1 h
      obtain ⟨rfl, rfl⟩ := Prod.mk.inj he
      intro hinfix
      rcases List.infix_cons_iff.1 hinfix with hfront | hinfix
      · have hwhole := append_of_breakOn hbreak
        refine hnot (List.isPrefixOf_iff_prefix.2 (hfront.trans ⟨sep ++ after, ?_⟩))
        rw [List.cons_append, ← hwhole, List.append_assoc]
      · exact ih hbreak hinfix

/-- The first occurrence of a separator. -/
theorem breakOn_append (hne : sep ≠ []) (hsep : Unbordered sep) (hf : ¬ sep <:+: f) :
    breakOn sep (f ++ (sep ++ r)) = some (f, r) := by
  induction f with
  | nil =>
    obtain ⟨c, sep, rfl⟩ := List.exists_cons_of_ne_nil hne
    have hprefix : (c :: sep).isPrefixOf (c :: sep ++ r) = true :=
      List.isPrefixOf_iff_prefix.2 (List.prefix_append _ _)
    rw [List.nil_append, List.cons_append, breakOn, ← List.cons_append, if_pos hprefix,
      List.drop_left]
  | cons c f ih =>
    have hprefix : ¬ sep.isPrefixOf (c :: (f ++ (sep ++ r))) = true := by
      intro h
      obtain ⟨r', hr⟩ := List.isPrefixOf_iff_prefix.1 h
      have hnil := eq_nil_of_append_separator (f := []) (a := c :: f) hsep hf hr
      cases hnil
    rw [List.cons_append, breakOn, if_neg hprefix, ih fun h => hf (List.infix_cons h)]
    rfl

theorem breakOn_singleton {c : Char} (hf : c ∉ f) : breakOn [c] (f ++ c :: r) = some (f, r) := by
  have hsep : Unbordered [c] := by
    intro k hk hpos
    rw [List.length_singleton] at hk
    omega
  exact breakOn_append (by simp) hsep fun h => hf ((List.singleton_infix_iff c f).1 h)

end LiveMarkup.Text
