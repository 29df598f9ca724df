import LiveMarkup.Markup.Token
import LiveMarkup.Proofs.Markup.Spelling
import LiveMarkup.Proofs.Text.Cuts

set_option autoImplicit false

/-!
Places in markup that is cut into tokens: inside a token, in the content of an element that holds no
markup, in the value of an attribute as a start tag spells it.
-/

namespace LiveMarkup.Markup

open LiveMarkup.Text

namespace TagPiece

/-- The name of an attribute with a value, and where the value is written, for a piece that begins at
byte `start`. -/
def valueSpan (start : Nat) : TagPiece → Option (String × Span)
  | .unquoted name before after value =>
    let first := start + byteSize (name ++ (before ++ '=' :: after))
    some (String.ofList name, ⟨first, first + byteSize value⟩)
  | .quoted name before after quote value =>
    let first := start + byteSize (name ++ (before ++ '=' :: (after ++ [quote])))
    some (String.ofList name, ⟨first, first + byteSize value⟩)
  | .space _ | .slash | .bare _ => none

/-- The values of attributes in pieces that begin at byte `start`. -/
def valueSpans (start : Nat) : List TagPiece → List (String × Span)
  | [] => []
  | p :: ps => (p.valueSpan start).toList ++ valueSpans (start + byteSize p.chars) ps

/-- The value of a piece lies in the piece, behind its first byte. -/
theorem mem_valueSpan {p : TagPiece} {start : Nat} {v : String × Span}
    (hv : v ∈ (p.valueSpan start).toList) :
    start < v.2.start ∧ v.2.stop ≤ start + byteSize p.chars := by
  have hpos : 0 < Char.utf8Size '=' := by decide
  cases p with
  | unquoted name before after value | quoted name before after quote value =>
    obtain rfl := List.mem_singleton.1 hv
    simp only [chars, byteSize_append, byteSize_cons, byteSize_nil]
    omega
  | space | slash | bare => cases hv

theorem start_lt_of_mem {pieces : List TagPiece} {start : Nat} {v : String × Span}
    (hv : v ∈ valueSpans start pieces) : start < v.2.start := by
  induction pieces generalizing start with
  | nil => cases hv
  | cons p pieces ih =>
    rcases List.mem_append.1 hv with hv | hv
    · exact (mem_valueSpan hv).1
    · exact Nat.lt_of_le_of_lt (Nat.le_add_right _ _) (ih hv)

theorem stop_le_of_mem {pieces : List TagPiece} {cs : List Char} {start : Nat}
    {v : String × Span} (hpieces : Spells pieces cs) (hv : v ∈ valueSpans start pieces) :
    v.2.stop ≤ start + byteSize cs := by
  induction pieces generalizing start cs with
  | nil => cases hv
  | cons p pieces ih =>
    obtain ⟨rest, rfl, -, hrest⟩ := hpieces
    rw [byteSize_append, ← Nat.add_assoc]
    rcases List.mem_append.1 hv with hv | hv
    · exact Nat.le_trans (mem_valueSpan hv).2 (Nat.le_add_right _ _)
    · exact ih hrest hv

end TagPiece

def Token.IsDeclaration : Token → Prop
  | .comment _ | .doctype _ => True
  | _ => False

def Token.IsComment : Token → Prop
  | .comment _ => True
  | _ => False

def Token.IsEndTag : Token → Prop
  | .endTag _ => True
  | _ => False

def Token.IsStartTag : Token → Prop
  | .startTag _ => True
  | _ => False

def Token.IsRawText : Token → Prop
  | .rawText _ _ => True
  | _ => False

/-- Ordinary text. -/
def Token.IsText : Token → Prop
  | .text _ => True
  | _ => False

/-- The start tags among tokens. -/
def startTags (tokens : List (Token × Span)) : List (StartTag × Span) :=
  tokens.filterMap fun
    | (.startTag tag, span) => some (tag, span)
    | _ => none

theorem startTags_append (tokens tokens' : List (Token × Span)) :
    startTags (tokens ++ tokens') = startTags tokens ++ startTags tokens' :=
  List.filterMap_append

/-- Byte `o` is inside a token of a kind, with a byte of the token before it. -/
def Inside (kind : Token → Prop) (tokens : List (Token × Span)) (o : Nat) : Prop :=
  ∃ t ∈ tokens, kind t.1 ∧ t.2.start < o ∧ o < t.2.stop

/-- A start tag is what the pieces spell that stand at its place in a text. -/
def StartTag.SpeltBy (text : List Char) (tag : StartTag) (span : Span) (name : List Char)
    (pieces : List TagPiece) : Prop :=
  ∃ before interior after, text = before ++ ('<' :: (name ++ interior ++ ['>']) ++ after) ∧
    span = ⟨byteSize before, byteSize before + byteSize ('<' :: (name ++ interior ++ ['>']))⟩ ∧
    IsWord name ∧ ¬ Starts isWordChar interior ∧ Spells pieces interior ∧
    tag = .ofPieces name pieces

/-- The characters of a start tag say where its name ends. -/
theorem StartTag.SpeltBy.spells {before interior after name name' : List Char} {tag : StartTag}
    {pieces : List TagPiece} (hname : IsWord name) (hstop : ¬ Starts isWordChar interior)
    (h : tag.SpeltBy (before ++ ('<' :: (name ++ interior ++ ['>']) ++ after))
      ⟨byteSize before, byteSize before + byteSize ('<' :: (name ++ interior ++ ['>']))⟩
      name' pieces) : name' = name ∧ Spells pieces interior := by
  obtain ⟨before', interior', after', htext, hspan, hname', hstop', hpieces, -⟩ := h
  obtain ⟨hbefore, hsize⟩ := Span.mk.inj hspan
  obtain ⟨rfl, hmore⟩ := append_inj_of_byteSize htext hbefore
  obtain ⟨htag, -⟩ := append_inj_of_byteSize hmore (by omega)
  have hinside : name ++ interior = name' ++ interior' :=
    (List.append_inj' (List.cons.inj htag).2 rfl).1
  -- A name goes on as long as word characters do.
  have hnil {n e i : List Char} (hword : IsWord (n ++ e)) (hi : ¬ Starts isWordChar (e ++ i)) :
      e = [] := by
    by_contra hne
    obtain ⟨c, e, rfl⟩ := List.exists_cons_of_ne_nil hne
    exact hi ⟨c, e ++ i, rfl, hword.2 c (by simp)⟩
  rcases List.append_eq_append_iff.1 hinside with ⟨e, rfl, rfl⟩ | ⟨e, rfl, rfl⟩
  · obtain rfl := hnil hname' hstop
    exact ⟨by simp, hpieces⟩
  · obtain rfl := hnil hname hstop'
    exact ⟨by simp, hpieces⟩

/-- Byte `o` is in the content of an element that holds no markup, or right before its end tag. -/
def InContent (text : List Char) (tokens : List (Token × Span)) (o : Nat) : Prop :=
  ∃ tag span stop, (Token.startTag tag, span) ∈ tokens ∧ (textMode tag.name).isSome = true ∧
    (stop = span.stop ∨
      ∃ content, (Token.rawText tag.name content, (⟨span.stop, stop⟩ : Span)) ∈ tokens) ∧
    (stop = byteSize text ∨ ∃ t ∈ tokens, t.1.IsEndTag ∧ t.2.start = stop) ∧
    span.stop ≤ o ∧ o ≤ stop

/-- Places in order from `start` to `stop`, none of them empty. -/
structure InOrder {α : Type} (start stop : Nat) (places : List (α × Span)) : Prop where
  bounds : ∀ t ∈ places, start ≤ t.2.start ∧ t.2.start < t.2.stop ∧ t.2.stop ≤ stop
  apart : places.Pairwise fun t t' => t.2.stop ≤ t'.2.start

def Span.Covers (span : Span) (o : Nat) : Prop := span.start ≤ o ∧ o < span.stop

instance (span : Span) (o : Nat) : Decidable (span.Covers o) := inferInstanceAs (Decidable (_ ∧ _))

namespace InOrder

variable {α : Type} {start stop o : Nat} {t t' : α × Span} {places : List (α × Span)}

theorem cons (h : InOrder t.2.stop stop places) (hstart : start ≤ t.2.start)
    (hne : t.2.start < t.2.stop) (hstop : t.2.stop ≤ stop) : InOrder start stop (t :: places) where
  bounds := List.forall_mem_cons.2 ⟨⟨hstart, hne, hstop⟩, fun t' ht' =>
    ⟨by have := (h.bounds t' ht').1; omega, (h.bounds t' ht').2⟩⟩
  apart := List.pairwise_cons.2 ⟨fun t' ht' => (h.bounds t' ht').1, h.apart⟩

/-- One byte belongs to one place. -/
theorem eq_of_covers {i j : Nat} (h : InOrder start stop places) (hi : places[i]? = some t)
    (hj : places[j]? = some t') (ht : t.2.Covers o) (ht' : t'.2.Covers o) : i = j := by
  have hlt {i j : Nat} {t t' : α × Span} (hi : places[i]? = some t) (hj : places[j]? = some t')
      (hij : i < j) : t.2.stop ≤ t'.2.start := by
    obtain ⟨hi', rfl⟩ := List.getElem?_eq_some_iff.1 hi
    obtain ⟨hj', rfl⟩ := List.getElem?_eq_some_iff.1 hj
    exact List.pairwise_iff_getElem.1 h.apart i j hi' hj' hij
  obtain ⟨hstart, hstop⟩ := ht
  obtain ⟨hstart', hstop'⟩ := ht'
  rcases Nat.lt_trichotomy i j with hij | rfl | hij
  · have := hlt hi hj hij
    omega
  · rfl
  · have := hlt hj hi hij
    omega

theorem eq_of_mem (h : InOrder start stop places) (ht : t ∈ places) (ht' : t' ∈ places)
    (hcovers : t.2.Covers o) (hcovers' : t'.2.Covers o) : t = t' := by
  obtain ⟨i, hi⟩ := List.getElem?_of_mem ht
  obtain ⟨j, hj⟩ := List.getElem?_of_mem ht'
  obtain rfl := h.eq_of_covers hi hj hcovers hcovers'
  exact Option.some.inj (hi.symm.trans hj)

end InOrder

section Covering

variable {text : List Char} {tokens : List (Token × Span)} {start stop o i : Nat}

theorem mem_of_startTags {tag : StartTag} {span : Span}
    (h : (startTags tokens)[i]? = some (tag, span)) : (Token.startTag tag, span) ∈ tokens := by
  obtain ⟨⟨t, s⟩, ht, he⟩ := List.mem_filterMap.1 (List.mem_of_getElem? h)
  cases t with
  | startTag tag' =>
    obtain ⟨rfl, rfl⟩ := Prod.mk.inj (Option.some.inj he)
    exact ht
  | text | rawText | endTag | comment | doctype => cases he

theorem InOrder.startTags (h : InOrder start stop tokens) :
    InOrder start stop (startTags tokens) where
  bounds t ht := by
    obtain ⟨i, hi⟩ := List.getElem?_of_mem ht
    exact h.bounds _ (mem_of_startTags hi)
  apart := by
    refine List.Pairwise.filterMap _ (fun t t' hle b hb b' hb' => ?_) h.apart
    obtain ⟨t, span⟩ := t
    obtain ⟨t', span'⟩ := t'
    cases t <;> cases hb
    cases t' <;> cases hb'
    exact hle

/-- Inside a token no other one stands. -/
theorem Inside.only {kind : Token → Prop} (h : Inside kind tokens o)
    (horder : InOrder start stop tokens) {t : Token × Span} (ht : t ∈ tokens)
    (hcovers : t.2.Covers o) : kind t.1 ∧ t.2.start < o := by
  obtain ⟨t', ht', hkind, hstart, hstop⟩ := h
  obtain rfl := horder.eq_of_mem ht ht' hcovers ⟨hstart.le, hstop⟩
  exact ⟨hkind, hstart⟩

/-- In content that is no markup stands that content, or the end tag behind it. -/
theorem InContent.only (h : InContent text tokens o)
    (horder : InOrder start (byteSize text) tokens) {t : Token × Span} (ht : t ∈ tokens)
    (hcovers : t.2.Covers o) : t.1.IsRawText ∨ t.1.IsEndTag := by
  obtain ⟨tag, span, stop, -, -, hcontent, hend, hstart, hstop⟩ := h
  by_cases hlt : o < stop
  · rcases hcontent with rfl | ⟨content, hmem⟩
    · omega
    · obtain rfl := horder.eq_of_mem ht hmem hcovers ⟨hstart, hlt⟩
      exact .inl trivial
  · obtain rfl : o = stop := by omega
    rcases hend with rfl | ⟨t', ht', hkind, rfl⟩
    · have := (horder.bounds t ht).2.2
      have := hcovers.2
      omega
    · obtain rfl := horder.eq_of_mem ht ht' hcovers ⟨Nat.le_refl _, (horder.bounds t' ht').2.1⟩
      exact .inr hkind

/-- Byte `o` is in the value of an attribute that is written `name` in start tag `e`. -/
def InValue (text : List Char) (tokens : List (Token × Span)) (e : Nat) (name : String) (o : Nat) :
    Prop :=
  ∃ tag span written pieces value, (startTags tokens)[e]? = some (tag, span) ∧
    tag.SpeltBy text span written pieces ∧
    (name, value) ∈ TagPiece.valueSpans (span.start + byteSize ('<' :: written)) pieces ∧
    value.Covers o

/-- A value is in its start tag. -/
theorem covers_of_value {tag : StartTag} {span value : Span} {written : List Char}
    {pieces : List TagPiece} {name : String} (hspelt : tag.SpeltBy text span written pieces)
    (hvalue : (name, value) ∈ TagPiece.valueSpans (span.start + byteSize ('<' :: written)) pieces)
    (ho : value.Covers o) : span.Covers o := by
  obtain ⟨before, interior, after, -, rfl, -, -, hpieces, -⟩ := hspelt
  have hstart := TagPiece.start_lt_of_mem hvalue
  have hstop := TagPiece.stop_le_of_mem hpieces hvalue
  obtain ⟨hle, hlt⟩ := ho
  simp only [Span.Covers, byteSize_cons, byteSize_append, byteSize_nil] at hstart hstop ⊢
  omega

end Covering

end LiveMarkup.Markup
