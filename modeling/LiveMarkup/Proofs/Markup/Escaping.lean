import LiveMarkup.Markup.CharacterReference
import Mathlib.Tactic.SplitIfs

set_option autoImplicit false

/-!
Decoding undoes escaping. A character is written as itself, which is then no `&`, or as a reference
that reads back as this character whatever follows; so a text is read back one character at a time.
-/

namespace LiveMarkup.Markup.CharacterReference

variable {c : Char} {rest : List Char}

theorem decodeChars_cons (h : c ≠ '&') (cs : List Char) :
    decodeChars (c :: cs) = c :: decodeChars cs := by
  rw [decodeChars]
  exact fun he => h he

theorem decodeChars_of_read {s : List Char} (h : read s = some (c, rest)) :
    decodeChars ('&' :: s) = c :: decodeChars rest := by
  rw [decodeChars]
  split
  · next h' =>
    obtain ⟨rfl, rfl⟩ := Prod.mk.inj (Option.some.inj (h.symm.trans h'))
    rfl
  · next h' => cases h.symm.trans h'

/-- A character is read back from what is written for it. -/
def Undone (escape : Char → List Char) : Prop :=
  ∀ c rest, decodeChars (escape c ++ rest) = c :: decodeChars rest

theorem Undone.flatMap {escape : Char → List Char} (h : Undone escape) (cs : List Char) :
    decodeChars (cs.flatMap escape) = cs := by
  induction cs with
  | nil => rw [List.flatMap_nil, decodeChars]
  | cons c cs ih => rw [List.flatMap_cons, h, ih]

theorem undone_escapeTextChar : Undone escapeTextChar := by
  intro c rest
  unfold escapeTextChar
  split_ifs with hamp hspace hlt hgt
  · subst hamp
    exact decodeChars_of_read rfl
  · subst hspace
    exact decodeChars_of_read rfl
  · subst hlt
    exact decodeChars_of_read rfl
  · subst hgt
    exact decodeChars_of_read rfl
  · exact decodeChars_cons hamp rest

theorem undone_escapeAttributeChar : Undone escapeAttributeChar := by
  intro c rest
  unfold escapeAttributeChar
  split_ifs with hamp hspace hquote
  · subst hamp
    exact decodeChars_of_read rfl
  · subst hspace
    exact decodeChars_of_read rfl
  · subst hquote
    exact decodeChars_of_read rfl
  · exact decodeChars_cons hamp rest

theorem toList_escapeText (s : String) :
    (escapeText s).toList = s.toList.flatMap escapeTextChar := String.toList_ofList

theorem toList_escapeAttribute (s : String) :
    (escapeAttribute s).toList = s.toList.flatMap escapeAttributeChar := String.toList_ofList

theorem decode_escapeText (s : String) : decode (escapeText s) = s := by
  rw [decode, toList_escapeText, undone_escapeTextChar.flatMap, String.ofList_toList]

theorem decode_escapeAttribute (s : String) : decode (escapeAttribute s) = s := by
  rw [decode, toList_escapeAttribute, undone_escapeAttributeChar.flatMap, String.ofList_toList]

theorem not_mem_flatMap {escape : Char → List Char} {x : Char} (h : ∀ c, x ∉ escape c)
    (cs : List Char) : x ∉ cs.flatMap escape := fun hm => by
  obtain ⟨c, -, hc⟩ := List.mem_flatMap.1 hm
  exact h c hc

theorem lt_not_mem_escapeText (s : String) : '<' ∉ (escapeText s).toList := by
  rw [toList_escapeText]
  refine not_mem_flatMap (fun c hc => ?_) s.toList
  unfold escapeTextChar at hc
  split_ifs at hc with hamp hspace hlt hgt <;> simp at hc
  exact hlt hc.symm

theorem gt_not_mem_escapeText (s : String) : '>' ∉ (escapeText s).toList := by
  rw [toList_escapeText]
  refine not_mem_flatMap (fun c hc => ?_) s.toList
  unfold escapeTextChar at hc
  split_ifs at hc with hamp hspace hlt hgt <;> simp at hc
  exact hgt hc.symm

theorem quote_not_mem_escapeAttribute (s : String) : '"' ∉ (escapeAttribute s).toList := by
  rw [toList_escapeAttribute]
  refine not_mem_flatMap (fun c hc => ?_) s.toList
  unfold escapeAttributeChar at hc
  split_ifs at hc with hamp hspace hquote <;> simp at hc
  exact hquote hc.symm

theorem escapeText_ne_empty {s : String} (h : s ≠ "") : (escapeText s).toList ≠ [] := by
  intro hnil
  have hback := undone_escapeTextChar.flatMap s.toList
  rw [← toList_escapeText, hnil, decodeChars] at hback
  exact h (String.toList_eq_nil_iff.1 hback.symm)

/-- A text in which a character is written as `text` wherever it stands. -/
def replaceChar (c : Char) (text : String) (s : String) : String :=
  String.ofList (s.toList.flatMap fun x => if x = c then text.toList else [x])

theorem toList_replaceChar (c : Char) (text s : String) : (replaceChar c text s).toList =
    s.toList.flatMap fun x => if x = c then text.toList else [x] := String.toList_ofList

/-- Escaping text one character at a time is replacing one character after the other, ampersands
first: what is written for a later character holds one. -/
theorem escapeText_eq_replaceChar (s : String) : escapeText s = replaceChar '>' "&gt;"
    (replaceChar '<' "&lt;" (replaceChar '\u00a0' "&nbsp;" (replaceChar '&' "&amp;" s))) := by
  refine String.toList_injective ?_
  simp only [toList_escapeText, toList_replaceChar, List.flatMap_assoc]
  refine congrArg s.toList.flatMap (funext fun c => ?_)
  unfold escapeTextChar
  split_ifs with hamp hspace hlt hgt
  · rfl
  · subst hspace
    rfl
  · subst hlt
    rfl
  · subst hgt
    rfl
  · simp only [List.flatMap_cons, List.flatMap_nil, List.append_nil, hspace, hlt, hgt, if_false]

theorem escapeAttribute_eq_replaceChar (s : String) : escapeAttribute s =
    replaceChar '"' "&quot;" (replaceChar '\u00a0' "&nbsp;" (replaceChar '&' "&amp;" s)) := by
  refine String.toList_injective ?_
  simp only [toList_escapeAttribute, toList_replaceChar, List.flatMap_assoc]
  refine congrArg s.toList.flatMap (funext fun c => ?_)
  unfold escapeAttributeChar
  split_ifs with hamp hspace hquote
  · rfl
  · subst hspace
    rfl
  · subst hquote
    rfl
  · simp only [List.flatMap_cons, List.flatMap_nil, List.append_nil, hspace, hquote, if_false]

/-- Every text is read back from what is written for it, and what is written holds no character that
would end the text or the quoted value around it. What is written is the text after one replacement
for each character that needs one. -/
theorem escaping_undone (s : String) :
    (decode (escapeText s) = s ∧ '<' ∉ (escapeText s).toList ∧ '>' ∉ (escapeText s).toList ∧
      escapeText s = replaceChar '>' "&gt;" (replaceChar '<' "&lt;"
        (replaceChar '\u00a0' "&nbsp;" (replaceChar '&' "&amp;" s)))) ∧
    decode (escapeAttribute s) = s ∧ '"' ∉ (escapeAttribute s).toList ∧
      escapeAttribute s = replaceChar '"' "&quot;"
        (replaceChar '\u00a0' "&nbsp;" (replaceChar '&' "&amp;" s)) :=
  ⟨⟨decode_escapeText s, lt_not_mem_escapeText s, gt_not_mem_escapeText s,
      escapeText_eq_replaceChar s⟩,
    decode_escapeAttribute s, quote_not_mem_escapeAttribute s, escapeAttribute_eq_replaceChar s⟩

end LiveMarkup.Markup.CharacterReference
