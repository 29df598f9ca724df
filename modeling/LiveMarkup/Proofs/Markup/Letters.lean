import LiveMarkup.Markup.Names
import LiveMarkup.Text.Ascii

set_option autoImplicit false

/-!
The case of letters in names. What a name decides does not depend on it, and the names that decide
how content is read are made of letters.
-/

namespace LiveMarkup.Text

theorem toLower_or_isLower (c : Char) : c.toLower = c ∨ c.toLower.isLower = true := by
  unfold Char.toLower
  split
  · next h =>
    right
    unfold Char.isLower
    simp only [ge_iff_le, UInt32.le_iff_toNat_le, UInt32.toNat_add] at h ⊢
    simp at h ⊢
    omega
  · exact .inl rfl

theorem toLower_of_isLower {c : Char} (h : c.isLower = true) : c.toLower = c := by
  unfold Char.isLower at h
  unfold Char.toLower
  rw [dif_neg]
  simp only [ge_iff_le, UInt32.le_iff_toNat_le, Bool.and_eq_true, decide_eq_true_eq] at h ⊢
  have hz : 'Z'.val.toNat = 90 := rfl
  have ha : 'a'.val.toNat = 97 := rfl
  omega

theorem toLower_of_not_isUpper {c : Char} (h : c.isUpper = false) : c.toLower = c := by
  unfold Char.isUpper at h
  unfold Char.toLower
  rw [dif_neg]
  simpa using h

theorem isUpper_toLower (c : Char) : c.toLower.isUpper = false := by
  unfold Char.isUpper Char.toLower
  split
  · next h =>
    simp only [ge_iff_le, UInt32.le_iff_toNat_le, UInt32.toNat_add] at h ⊢
    simp at h ⊢
    omega
  · next h => simpa using h

@[simp] theorem toLower_toLower (c : Char) : c.toLower.toLower = c.toLower :=
  (toLower_or_isLower c).elim (fun h => by rw [h, h]) toLower_of_isLower

theorem isAlpha_of_isLower_toLower {c : Char} (h : c.toLower.isLower = true) :
    c.isAlpha = true := by
  unfold Char.isAlpha Char.isUpper
  rw [Bool.or_eq_true]
  unfold Char.toLower at h
  split at h
  · next hupper => exact .inl (by simpa using hupper)
  · exact .inr h

/-- Only letters have a lower case of their own. -/
theorem eq_of_toLower_eq {c d : Char} (h : c.toLower = d) (hd : d.isLower = false) : c = d := by
  rcases toLower_or_isLower c with hc | hc
  · rw [← hc, h]
  · rw [h, hd] at hc
    cases hc

theorem toList_toLower (s : String) : s.toLower.toList = s.toList.map Char.toLower :=
  String.toList_map

theorem toLower_ofList (cs : List Char) :
    (String.ofList cs).toLower = String.ofList (cs.map Char.toLower) := by
  rw [← String.toList_inj, toList_toLower, String.toList_ofList, String.toList_ofList]

theorem string_toLower_toLower (name : String) : name.toLower.toLower = name.toLower := by
  rw [← String.toList_inj]
  simp [toList_toLower]

theorem sameName_iff {a b : String} :
    sameName a b = true ↔ a.toList.map Char.toLower = b.toList.map Char.toLower :=
  beq_iff_eq

theorem sameName_symm {a b : String} (h : sameName a b = true) : sameName b a = true :=
  sameName_iff.2 (sameName_iff.1 h).symm

theorem sameName_trans {a b c : String} (h : sameName a b = true) (h' : sameName b c = true) :
    sameName a c = true :=
  sameName_iff.2 ((sameName_iff.1 h).trans (sameName_iff.1 h'))

theorem toLower_eq_of_sameName {a b : String} (h : sameName a b = true) : a.toLower = b.toLower := by
  rw [← String.toList_inj, toList_toLower, toList_toLower]
  exact sameName_iff.1 h

end LiveMarkup.Text

namespace LiveMarkup.Markup

open LiveMarkup.Text

variable {a b : List Char} {mode : TextMode}

theorem isForeignRoot_congr (h : a.map Char.toLower = b.map Char.toLower) :
    isForeignRoot (String.ofList a) = isForeignRoot (String.ofList b) := by
  rw [isForeignRoot, isForeignRoot, toLower_ofList, toLower_ofList, h]

theorem textMode_congr (h : a.map Char.toLower = b.map Char.toLower) :
    textMode (String.ofList a) = textMode (String.ofList b) := by
  rw [textMode, textMode, toLower_ofList, toLower_ofList, h]

theorem isForeignRoot_toLower (name : String) : isForeignRoot name.toLower = isForeignRoot name := by
  rw [isForeignRoot, isForeignRoot, string_toLower_toLower]

theorem textMode_toLower (name : String) : textMode name.toLower = textMode name := by
  rw [textMode, textMode, string_toLower_toLower]

theorem isForeignRoot_of_sameName {a b : String} (h : sameName a b = true) :
    isForeignRoot a = isForeignRoot b := by
  rw [← isForeignRoot_toLower a, toLower_eq_of_sameName h, isForeignRoot_toLower]

/-- The elements whose content is one text. -/
theorem mem_of_textMode {name : String} (h : textMode name = some mode) :
    name.toLower ∈ ["script", "style", "xmp", "iframe", "noembed", "noframes", "noscript"] ++
      ["textarea", "title"] := by
  unfold textMode at h
  simp only at h
  split at h
  · next hraw => exact List.mem_append_left _ (List.contains_iff_mem.1 hraw)
  · split at h
    · next hescapable => exact List.mem_append_right _ (List.contains_iff_mem.1 hescapable)
    · cases h

theorem isForeignRoot_of_textMode {name : String} (h : textMode name = some mode) :
    isForeignRoot name = false := by
  have hmem := mem_of_textMode h
  rw [isForeignRoot]
  generalize name.toLower = lower at hmem ⊢
  revert lower
  decide

/-- The content that is read as it stands is written as it stands. -/
theorem isRawText_of_textMode {name : String} (h : textMode name = some mode) :
    isRawText name = (mode == .raw) := by
  have hmem := mem_of_textMode h
  rw [isRawText]
  rw [textMode] at h
  generalize name.toLower = lower at hmem h ⊢
  revert lower
  cases mode <;> decide

theorem ne_nil_of_textMode (h : textMode (String.ofList a) = some mode) : a ≠ [] := by
  rintro rfl
  have hmem := mem_of_textMode h
  rw [toLower_ofList] at hmem
  revert hmem
  decide

theorem isLower_of_textMode (h : textMode (String.ofList a) = some mode) :
    ∀ c ∈ a.map Char.toLower, c.isLower = true := by
  have hmem := mem_of_textMode h
  rw [toLower_ofList] at hmem
  intro c hc
  have hletters : (["script", "style", "xmp", "iframe", "noembed", "noframes", "noscript"] ++
      ["textarea", "title"]).all (fun name => name.toList.all Char.isLower) = true := by decide
  have hall := List.all_eq_true.1 hletters _ hmem
  rw [String.toList_ofList] at hall
  exact List.all_eq_true.1 hall c hc

end LiveMarkup.Markup
