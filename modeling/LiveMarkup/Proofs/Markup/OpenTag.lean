import LiveMarkup.Markup.Lexeme
import LiveMarkup.Proofs.Markup.Escaping
import LiveMarkup.Proofs.Markup.Spelling
import LiveMarkup.Proofs.Text.Separators
import LiveMarkup.Tree.Html

set_option autoImplicit false

/-!
Start tags as they are written. Every value stands in double quotes and holds none, so the bracket
that closes the tag is found behind the last attribute, and the inside is read as the same tag.
-/

namespace LiveMarkup.Markup

open LiveMarkup.Text

theorem IsWord.not_space {name : List Char} (h : IsWord name) (rest : List Char) :
    ¬ Starts isTagSpace (name ++ rest) := by
  obtain ⟨c, name, rfl⟩ := List.exists_cons_of_ne_nil h.1
  have hc := h.2 c List.mem_cons_self
  exact not_starts_cons (by simp_all [isWordChar])

section Closing

variable {c : Char} {cs : List Char}

/-- Text in a tag that does not close it and leaves no quote open. -/
def Inert (cs : List Char) : Prop :=
  ∀ rest, breakAtTagClose none false (cs ++ rest) =
    (breakAtTagClose none false rest).map fun (inside, after) => (cs ++ inside, after)

theorem Inert.nil : Inert [] := by
  intro rest
  simp

theorem Inert.append {u v : List Char} (hu : Inert u) (hv : Inert v) : Inert (u ++ v) := by
  intro rest
  rw [List.append_assoc, hu, hv, Option.map_map]
  simp [Function.comp_def]

theorem Inert.singleton (hclose : c ≠ '>') (hequals : c ≠ '=') : Inert [c] := by
  intro rest
  simp [breakAtTagClose, hclose, hequals]

theorem Inert.of_word (h : ∀ c ∈ cs, isWordChar c = true) : Inert cs := by
  induction cs with
  | nil => exact Inert.nil
  | cons c cs ih =>
    obtain ⟨hc, hcs⟩ := List.forall_mem_cons.1 h
    refine (Inert.singleton ?_ ?_).append (u := [c]) (ih hcs)
    · rintro rfl
      cases hc
    · rintro rfl
      cases hc

theorem breakAtTagClose_quoted {quote : Char} {value : List Char} (h : quote ∉ value)
    (rest : List Char) : breakAtTagClose (some quote) false (value ++ quote :: rest) =
      (breakAtTagClose none false rest).map fun (inside, after) =>
        (value ++ quote :: inside, after) := by
  induction value with
  | nil => simp [breakAtTagClose]
  | cons c value ih =>
    obtain ⟨hc, hvalue⟩ := not_or.1 (mt List.mem_cons.2 h)
    simp only [List.cons_append, breakAtTagClose, if_neg (Ne.symm hc), ih hvalue, Option.map_map]
    rfl

theorem Inert.value {value : List Char} (h : '"' ∉ value) :
    Inert ('=' :: '"' :: (value ++ ['"'])) := by
  intro rest
  simp [breakAtTagClose, breakAtTagClose_quoted h, Function.comp_def]

end Closing

namespace TagLexeme

variable {rest : List Char}

theorem next_space (h : ¬ Starts isTagSpace rest) :
    next ' ' rest = (.token .space, rest) := by
  have hspan := span_of_not_starts (u := []) (by simp) h
  simpa [next, isTagSpace] using hspan

theorem next_word {c : Char} {cs : List Char} (hword : IsWord (c :: cs))
    (hstop : ¬ Starts isWordChar rest) :
    next c (cs ++ rest) = (.token (.word (String.ofList (c :: cs))), rest) := by
  obtain ⟨hc, hcs⟩ := List.forall_mem_cons.1 hword.2
  have hspan := span_of_not_starts hcs hstop
  simp only [isWordChar, Bool.not_eq_true', Bool.or_eq_false_iff, beq_eq_false_iff_ne, ne_eq] at hc
  simp [next, hc, hspan]

theorem next_quoted {value : List Char} (h : '"' ∉ value) :
    next '"' (value ++ '"' :: rest) = (.token (.quoted (String.ofList value)), rest) := by
  simp [next, isTagSpace, breakOn_singleton h]

end TagLexeme

/-- Text that is read as items of a tag, wherever it stands. -/
def ReadAsItems (cs : List Char) (items : List TagItem) : Prop :=
  ∀ start size bare, ∃ ts, Tokens start cs ts ∧ TagItem.read size bare ts = .ok items

theorem Tokens.of_next {c : Char} {cs rest : List Char} {t : TagToken} {start : Nat}
    {ts : List Placed} (hnext : TagLexeme.next c cs = (.token t, rest))
    (h : Tokens (start + (byteSize (c :: cs) - byteSize rest)) rest ts) :
    Tokens start (c :: cs)
      ((t, ⟨start, start + (byteSize (c :: cs) - byteSize rest)⟩) :: ts) := by
  rw [Tokens] at h ⊢
  rw [TagLexeme.scan, hnext, List.map_cons, ← h]

namespace ReadAsItems

variable {rest : List Char} {items : List TagItem}

theorem nil : ReadAsItems [] [] :=
  fun start size bare => ⟨[], by rw [Tokens, TagLexeme.scan]; rfl, by rw [TagItem.read]⟩

theorem space (hstop : ¬ Starts isTagSpace rest) (h : ReadAsItems rest items) :
    ReadAsItems (' ' :: rest) (.space :: items) := by
  intro start size bare
  obtain ⟨ts, hts, hread⟩ := h _ size bare
  refine ⟨_, hts.of_next (TagLexeme.next_space hstop), ?_⟩
  rw [TagItem.read, hread]
  rfl

theorem slash (h : ReadAsItems rest items) : ReadAsItems ('/' :: rest) (.slash :: items) := by
  intro start size bare
  obtain ⟨ts, hts, hread⟩ := h _ size false
  refine ⟨_, hts.of_next rfl, ?_⟩
  rw [TagItem.read, hread]
  rfl

theorem valued {name value : List Char} (hname : IsWord name) (hvalue : '"' ∉ value)
    (h : ReadAsItems rest items) :
    ReadAsItems (name ++ '=' :: '"' :: (value ++ '"' :: rest))
      (.attribute (String.ofList name) (String.ofList value) :: items) := by
  obtain ⟨c, name, rfl⟩ := List.exists_cons_of_ne_nil hname.1
  intro start size bare
  obtain ⟨ts, hts, hread⟩ := h _ size false
  refine ⟨_, ((hts.of_next (TagLexeme.next_quoted hvalue)).of_next rfl).of_next
    (TagLexeme.next_word hname (not_starts_cons rfl)), ?_⟩
  rw [TagItem.read]
  split
  · next htail => cases htail
  · next htail =>
    obtain ⟨rfl, rfl⟩ := AttributeTail.value.inj htail
    rw [hread]
    rfl
  · next htail => cases htail

end ReadAsItems

namespace StartTag

variable {tag : StartTag}

/-- A tag as it is written, behind its name. -/
def tail (tag : StartTag) : List Char :=
  tag.attributes.flatMap (fun a => (Html.attributeText a).toList) ++
    if tag.selfClosing then ['/'] else []

/-- The inside of a tag as it is written. -/
def interior (tag : StartTag) : List Char := tag.name.toList ++ tag.tail

/-- A tag whose names are read as they are written. -/
structure Legible (tag : StartTag) : Prop where
  name : IsWord tag.name.toList
  letter : Starts Char.isAlpha tag.name.toList
  attributes : ∀ a ∈ tag.attributes, IsWord a.name.toList

section Attributes

variable {name : String} {a : Attribute} {attributes : List Attribute} {selfClosing : Bool}

theorem toList_attributeText (a : Attribute) : (Html.attributeText a).toList =
    ' ' :: (a.name.toList ++ '=' :: '"' ::
      ((CharacterReference.escapeAttribute a.value).toList ++ ['"'])) := by
  simp [Html.attributeText]

theorem tail_cons : tail ⟨name, a :: attributes, selfClosing⟩ =
    ' ' :: (a.name.toList ++ '=' :: '"' :: ((CharacterReference.escapeAttribute a.value).toList ++
      '"' :: tail ⟨name, attributes, selfClosing⟩)) := by
  simp [tail, toList_attributeText]

theorem Legible.of_cons (h : Legible ⟨name, a :: attributes, selfClosing⟩) :
    IsWord a.name.toList ∧ Legible ⟨name, attributes, selfClosing⟩ :=
  ⟨h.attributes a List.mem_cons_self, h.name, h.letter,
    fun b hb => h.attributes b (List.mem_cons_of_mem a hb)⟩

end Attributes

/-- The items that the inside of a tag is read as, its name apart. -/
def items (tag : StartTag) : List TagItem :=
  tag.attributes.flatMap (fun a => [.space,
    .attribute a.name (CharacterReference.escapeAttribute a.value)]) ++
      if tag.selfClosing then [.slash] else []

theorem attributes_items (tag : StartTag) : TagItem.attributes tag.items = tag.attributes := by
  obtain ⟨name, attributes, selfClosing⟩ := tag
  rw [items]
  induction attributes with
  | nil => cases selfClosing <;> rfl
  | cons a attributes ih =>
    rw [List.flatMap_cons, List.append_assoc]
    simp only [TagItem.attributes] at ih ⊢
    simp [ih, CharacterReference.decode_escapeAttribute]

theorem closes_items (tag : StartTag) : TagItem.closes tag.items = tag.selfClosing := by
  obtain ⟨name, attributes, selfClosing⟩ := tag
  rw [items, TagItem.closes]
  cases selfClosing with
  | true => simp
  | false =>
    rcases List.eq_nil_or_concat attributes with rfl | ⟨front, last, rfl⟩
    · rfl
    · simp

theorem Legible.readAsItems (h : tag.Legible) : ReadAsItems tag.tail tag.items := by
  obtain ⟨name, attributes, selfClosing⟩ := tag
  induction attributes with
  | nil =>
    cases selfClosing with
    | true => exact ReadAsItems.nil.slash
    | false => exact ReadAsItems.nil
  | cons a attributes ih =>
    obtain ⟨ha, hrest⟩ := h.of_cons
    have hitem := (ih hrest).valued ha (CharacterReference.quote_not_mem_escapeAttribute a.value)
    rw [String.ofList_toList, String.ofList_toList] at hitem
    rw [tail_cons]
    exact hitem.space (ha.not_space _)

theorem not_starts_tail (tag : StartTag) : ¬ Starts isWordChar tag.tail := by
  obtain ⟨name, attributes, selfClosing⟩ := tag
  cases attributes with
  | nil =>
    cases selfClosing with
    | true => exact not_starts_cons rfl
    | false => exact fun ⟨c, rest, he, _⟩ => by cases he
  | cons a attributes =>
    rw [tail_cons]
    exact not_starts_cons rfl

theorem Legible.parse_interior (h : tag.Legible) :
    parse (String.ofList tag.interior) = .ok tag := by
  obtain ⟨c, name, hname⟩ := List.exists_cons_of_ne_nil h.name.1
  -- The name is one more word in front of the items, and is taken off them again.
  obtain ⟨ts, hts, hread⟩ := h.readAsItems (0 + (byteSize (c :: (name ++ tag.tail)) -
    byteSize tag.tail)) (String.ofList tag.interior).utf8ByteSize false
  have htokens := hts.of_next (TagLexeme.next_word (hname ▸ h.name) tag.not_starts_tail)
  rw [Tokens, ← List.cons_append, ← hname, ← interior] at htokens
  rw [parse, TagLexeme.ofInterior, String.toList_ofList, htokens]
  simp [faultOf, ofTokens, hread, Except.map, Except.mapError, attributes_items, closes_items]

theorem Legible.inert_tail (h : tag.Legible) : Inert tag.tail := by
  obtain ⟨name, attributes, selfClosing⟩ := tag
  induction attributes with
  | nil =>
    cases selfClosing with
    | true => exact Inert.singleton (by decide) (by decide)
    | false => exact Inert.nil
  | cons a attributes ih =>
    obtain ⟨ha, hrest⟩ := h.of_cons
    have hvalue := Inert.value (CharacterReference.quote_not_mem_escapeAttribute a.value)
    have hspace : Inert [' '] := Inert.singleton (by decide) (by decide)
    rw [tail_cons]
    simpa using hspace.append ((Inert.of_word ha.2).append (hvalue.append (ih hrest)))

theorem Legible.next_interior (h : tag.Legible) (rest : List Char) :
    Lexeme.next '<' (tag.interior ++ '>' :: rest) = (.startTag tag.interior, rest) := by
  obtain ⟨c, name, hname, hc⟩ := h.letter
  have hword : ∀ d ∈ name, isWordChar d = true := fun d hd =>
    h.name.2 d (hname ▸ List.mem_cons_of_mem c hd)
  have hclose : breakAtTagClose none false (name ++ tag.tail ++ '>' :: rest) =
      some (name ++ tag.tail, rest) := by
    rw [(Inert.of_word hword).append h.inert_tail]
    simp [breakAtTagClose]
  rw [interior, hname, Lexeme.next, if_pos rfl]
  simp only [List.cons_append]
  -- The first letter tells a start tag from an end tag and from a declaration.
  have hletter {d : Char} (hd : d.isAlpha = false) : c ≠ d := by
    rintro rfl
    rw [hc] at hd
    cases hd
  rw [Lexeme.afterOpen, if_pos hc, hclose]
  · exact fun _ he => absurd he (hletter rfl)
  · exact hletter rfl
  · exact hletter rfl
  · exact fun _ _ he => absurd he (hletter rfl)

end StartTag

end LiveMarkup.Markup
