import LiveMarkup.Markup.Parse
import LiveMarkup.Proofs.Template.Placed
import Mathlib

set_option autoImplicit false

/-!
The scanner of holes and the tokens of the markup agree on every hole, as long as the scanner is
nowhere led astray and no hole tears apart the beginning of a comment or of an end tag.
-/

namespace LiveMarkup

open Markup
open Markup.TagPiece (valueSpans)
open Text (byteSize)

/-- What a hole at byte `o` says that no value can go to, among the tokens of a text. -/
def ClosedPlace.Encloses (text : List Char) (tokens : List (Token × Span)) (o : Nat) :
    ClosedPlace → Prop
  | .comment => Inside Token.IsComment tokens o
  | .declaration => Inside Token.IsDeclaration tokens o ∨ Inside Token.IsEndTag tokens o
  | .tag => Inside Token.IsStartTag tokens o
  | .rawText => InContent text tokens o

namespace Hole

/-- A hole at byte `o` is of the kind that the tokens of the text say. -/
structure Agrees (text : List Char) (tokens : List (Token × Span)) (o : Nat) (hole : Hole) :
    Prop where
  node : hole = .node ↔
    (Token.comment marker, (⟨o, o + nodeMarker.utf8ByteSize⟩ : Span)) ∈ tokens
  value (e : Nat) (name : String) : hole = .attribute e name ↔ InValue text tokens e name o
  closed (place : ClosedPlace) : hole = .closed place →
    place.Encloses text tokens o ∧ ∀ t ∈ tokens, t.2.Covers o → ¬ t.1.IsText

section Agreeing

variable {text rest : List Char} {tokens : List (Token × Span)} {start stop o : Nat}

/-- At a node marker there is no value. -/
theorem agrees_node (horder : InOrder start stop tokens)
    (h : (Token.comment marker, (⟨o, o + nodeMarker.utf8ByteSize⟩ : Span)) ∈ tokens) :
    Agrees text tokens o .node where
  node := ⟨fun _ => h, fun _ => rfl⟩
  value e name := by
    refine ⟨nofun, ?_⟩
    rintro ⟨tag, span, written, pieces, value, htag, hspelt, hvalue, hcovers⟩
    have hpos : 0 < nodeMarker.utf8ByteSize := by decide
    have hcomment : (⟨o, o + nodeMarker.utf8ByteSize⟩ : Span).Covers o :=
      ⟨Nat.le_refl _, Nat.lt_add_of_pos_right hpos⟩
    cases horder.eq_of_mem h (mem_of_startTags htag) hcomment
      (covers_of_value hspelt hvalue hcovers)
  closed := nofun

/-- Where neither a comment begins nor a value is, no value can go. -/
theorem agrees_closed {place : ClosedPlace} (h : place.Encloses text tokens o)
    (htoken : ∀ t ∈ tokens, t.2.Covers o → ¬ t.1.IsText ∧ (t.1.IsComment → t.2.start < o))
    (hvalue : ∀ e name, ¬ InValue text tokens e name o) :
    Agrees text tokens o (.closed place) where
  node := by
    refine ⟨nofun, fun hmarker => ?_⟩
    have hpos : 0 < nodeMarker.utf8ByteSize := by decide
    have hcomment : (⟨o, o + nodeMarker.utf8ByteSize⟩ : Span).Covers o :=
      ⟨Nat.le_refl _, Nat.lt_add_of_pos_right hpos⟩
    exact absurd ((htoken _ hmarker hcomment).2 trivial) (Nat.lt_irrefl o)
  value e name := ⟨nofun, fun hv => absurd hv (hvalue e name)⟩
  closed
    | _, rfl => ⟨h, fun t ht hcovers => (htoken t ht hcovers).1⟩

/-- The tokens at a place are of a kind that is neither text nor start tag. -/
theorem agrees_of_kind {place : ClosedPlace} {kind : Token → Prop}
    (h : place.Encloses text tokens o)
    (hkind : ∀ t ∈ tokens, t.2.Covers o → kind t.1 ∧ (t.1.IsComment → t.2.start < o))
    (hother : ∀ t, kind t → ¬ t.IsText ∧ ¬ t.IsStartTag) : Agrees text tokens o (.closed place) := by
  refine agrees_closed h (fun t ht hcovers => ?_) ?_
  · obtain ⟨hk, hbefore⟩ := hkind t ht hcovers
    exact ⟨(hother _ hk).1, hbefore⟩
  · rintro e name ⟨tag, span, written, pieces, value, htag, hspelt, hvalue, hcovers⟩
    have hk := (hkind _ (mem_of_startTags htag) (covers_of_value hspelt hvalue hcovers)).1
    exact (hother _ hk).2 trivial

theorem agrees_of_inside {place : ClosedPlace} {kind : Token → Prop}
    (horder : InOrder start stop tokens) (hinside : Inside kind tokens o)
    (h : place.Encloses text tokens o) (hother : ∀ t, kind t → ¬ t.IsText ∧ ¬ t.IsStartTag) :
    Agrees text tokens o (.closed place) :=
  agrees_of_kind h (fun _ ht hcovers =>
    (hinside.only horder ht hcovers).imp_right fun hlt _ => hlt) hother

section StartTag

variable {i : Nat} {tag : StartTag} {span : Span}

/-- A byte in a start tag is in a value of that tag or in none. -/
theorem value_of_inValue (horder : InOrder start stop tokens)
    (htag : (startTags tokens)[i]? = some (tag, span)) (hspan : span.Covers o) {e : Nat}
    {name : String} (h : InValue text tokens e name o) :
    e = i ∧ ∃ written pieces value, tag.SpeltBy text span written pieces ∧
      (name, value) ∈ valueSpans (span.start + byteSize ('<' :: written)) pieces ∧
      value.Covers o := by
  obtain ⟨tag', span', written, pieces, value, htag', hspelt, hvalue, hcovers⟩ := h
  obtain rfl := horder.startTags.eq_of_covers htag' htag
    (covers_of_value hspelt hvalue hcovers) hspan
  obtain ⟨rfl, rfl⟩ := Prod.mk.inj (Option.some.inj (htag'.symm.trans htag))
  exact ⟨rfl, written, pieces, value, hspelt, hvalue, hcovers⟩

theorem agrees_tag (horder : InOrder start stop tokens)
    (htag : (startTags tokens)[i]? = some (tag, span)) (hstart : span.start < o)
    (hstop : o < span.stop)
    (hvalues : ∀ written pieces, tag.SpeltBy text span written pieces →
      ∀ v ∈ valueSpans (span.start + byteSize ('<' :: written)) pieces,
        o < v.2.start ∨ v.2.stop < o) : Agrees text tokens o (.closed .tag) := by
  have hinside : Inside Token.IsStartTag tokens o :=
    ⟨_, mem_of_startTags htag, trivial, hstart, hstop⟩
  refine agrees_closed hinside (fun t ht hcovers => ?_) fun e name hv => ?_
  · obtain ⟨hkind, hlt⟩ := hinside.only horder ht hcovers
    refine ⟨fun htext => ?_, fun _ => hlt⟩
    obtain ⟨t, s⟩ := t
    cases t with
    | text => exact hkind
    | rawText | startTag | endTag | comment | doctype => exact htext
  · obtain ⟨-, written, pieces, value, hspelt, hvalue, hle, hlt⟩ :=
      value_of_inValue horder htag ⟨hstart.le, hstop⟩ hv
    rcases hvalues written pieces hspelt _ hvalue with hout | hout
    · exact absurd hle (Nat.not_le.2 hout)
    · exact absurd hlt (Nat.not_lt.2 hout.le)

theorem isWord_marker : IsWord marker.toList :=
  ⟨by decide, List.all_eq_true.1 (by decide)⟩

theorem agrees_attribute {n : List Char} (horder : InOrder start stop tokens)
    (htag : (startTags tokens)[i]? = some (tag, span)) (hstart : span.start < o)
    (hstop : o < span.stop) (hspelt : ∃ written pieces, tag.SpeltBy text span written pieces)
    (htells : ∀ written pieces, tag.SpeltBy text span written pieces →
      (State.beforeValue n).Tells (valueSpans (span.start + byteSize ('<' :: written)) pieces) o rest)
    (hmarker : marker.toList <+: rest) :
    Agrees text tokens o (.attribute i (String.ofList n)) where
  node := by
    refine ⟨nofun, fun hcomment => ?_⟩
    have hpos : 0 < nodeMarker.utf8ByteSize := by decide
    cases horder.eq_of_mem hcomment (mem_of_startTags htag)
      ⟨Nat.le_refl _, Nat.lt_add_of_pos_right hpos⟩ ⟨hstart.le, hstop⟩
  value e name := by
    constructor
    · rintro he
      obtain ⟨rfl, rfl⟩ := Hole.attribute.inj he
      obtain ⟨written, pieces, hspelt⟩ := hspelt
      obtain ⟨value, hvalue, hle, hword⟩ :=
        (htells written pieces hspelt).2 marker.toList isWord_marker hmarker
      have hpos : 0 < byteSize marker.toList := Text.byteSize_pos isWord_marker.1
      exact ⟨tag, span, written, pieces, value, htag, hspelt, hvalue, hle, by omega⟩
    · intro hv
      obtain ⟨rfl, written, pieces, value, hspelt, hvalue, hle, hlt⟩ :=
        value_of_inValue horder htag ⟨hstart.le, hstop⟩ hv
      rw [← (htells written pieces hspelt).1 _ hvalue hle hlt.le]
  closed := nofun

end StartTag

/-- A hole that the scanner sees is as the tokens say. -/
theorem Walker.agrees {w : Walker} (h : w.scanner.Sees text tokens 0 o rest)
    (horder : InOrder start (byteSize text) tokens)
    (hwritten : w.scanner.hole.2.1.toList <+: rest) (hwhole : w.torn rest = false) :
    w.scanner.hole.1.Agrees text tokens o := by
  obtain ⟨⟨state, elements, tag, foreign, selfClosing⟩, bang⟩ := w
  match state with
  | .text | .tagOpen => exact agrees_node horder (h hwritten)
  | .comment _ =>
    exact agrees_of_inside horder h h fun t ht => by
      cases t with
      | comment => exact ⟨nofun, nofun⟩
      | text | rawText | startTag | endTag | doctype => exact ht.elim
  | .declaration =>
    exact agrees_of_inside horder h (.inl h) fun t ht => by
      cases t with
      | comment | doctype => exact ⟨nofun, nofun⟩
      | text | rawText | startTag | endTag => exact ht.elim
  | .endTag _ =>
    exact agrees_of_inside horder h (.inr h) fun t ht => by
      cases t with
      | endTag => exact ⟨nofun, nofun⟩
      | text | rawText | startTag | comment | doctype => exact ht.elim
  | .rawText close seen =>
    have hcontent : InContent text tokens o := h fun hseen hprefix => by
      simp [torn, hseen, List.isPrefixOf_iff_prefix.2 hprefix] at hwhole
    refine agrees_of_kind hcontent (fun t ht hcovers => ?_)
      fun t (ht : t.IsRawText ∨ t.IsEndTag) => ?_
    · have hkind := hcontent.only horder ht hcovers
      refine ⟨hkind, fun hcomment => ?_⟩
      obtain ⟨t, s⟩ := t
      cases t with
      | comment => exact (or_self_iff.1 hkind).elim
      | text | rawText | startTag | endTag | doctype => exact hcomment.elim
    · cases t with
      | rawText | endTag => exact ⟨id, id⟩
      | text | startTag | comment | doctype => exact (or_self_iff.1 ht).elim
  | .tagName | .beforeName | .name _ | .afterName _ =>
    obtain ⟨i, tag, span, -, htag, hstart, hstop, -, htells⟩ := h
    exact agrees_tag horder htag hstart hstop htells
  | .beforeValue n | .value n _ =>
    obtain ⟨i, tag, span, helements, htag, hstart, hstop, hspelt, htells⟩ := h
    obtain rfl : elements = 0 + i + 1 := helements
    have hagrees := agrees_attribute horder htag hstart hstop hspelt htells hwritten
    simpa [Scanner.hole] using hagrees

end Agreeing

end Hole

namespace TemplateKind

/-- What the markup of a template is read behind. -/
def opening : TemplateKind → String
  | .html => ""
  | .svg => svgOpen

def closing : TemplateKind → String
  | .html => ""
  | .svg => svgClose

/-- Open elements of foreign content where the markup of a template begins. -/
def foreign : TemplateKind → Nat
  | .html => 0
  | .svg => 1

/-- The tokens behind what opens a template. -/
def inner {α : Type} (kind : TemplateKind) (tokens : List α) : List α :=
  match kind with
  | .html => tokens
  | .svg => tokens.tail

/-- Markup with what a template of a kind is read between. -/
def wrap (kind : TemplateKind) (markup : String) : String :=
  kind.opening ++ markup ++ kind.closing

end TemplateKind

namespace Markup

/-- The markup of a template that can be read is cut into tokens. -/
theorem Lexed.of_tokenize {kind : TemplateKind} {markup : String} {tokens : List (Token × Span)}
    (h : tokenize (kind.wrap markup) = .ok tokens) :
    Lexed kind.opening.utf8ByteSize kind.foreign (markup.toList ++ kind.closing.toList)
      (kind.inner tokens) := by
  rw [tokenize] at h
  split at h
  · next herrors =>
    rw [List.isEmpty_iff] at herrors
    obtain rfl := Except.ok.inj h
    rw [Lexing.ofMarkup, TemplateKind.wrap, String.toList_append, String.toList_append,
      List.append_assoc] at herrors ⊢
    cases kind with
    | html => exact .of_scan herrors
    | svg =>
      rw [TemplateKind.opening, Lexing.scan_svgOpen] at herrors ⊢
      exact .of_scan herrors
  · cases h

end Markup

namespace TemplateStrings

/-- The holes of a template, with the places of what is written for them in the text that is read. -/
def placed (strings : TemplateStrings) (kind : TemplateKind) : List (Hole × Nat) :=
  Scan.placed { foreign := kind.foreign } kind.opening.utf8ByteSize strings.first strings.rest

/-- What is read behind the opening of a template. -/
def read (strings : TemplateStrings) (kind : TemplateKind) : List Char :=
  (Scan.ofStrings strings kind).markup.toList ++ kind.closing.toList

/-- The scanner of holes is nowhere led astray, and no hole tears apart the beginning of a comment or
of an end tag. -/
structure Straight (strings : TemplateStrings) (kind : TemplateKind) : Prop where
  follows : Hole.Walker.Follows ⟨{ foreign := kind.foreign }, 0⟩ (strings.read kind)
  whole : Text.AtCuts (strings.read kind) fun p q =>
    kind.opening.utf8ByteSize + byteSize p ∈ (strings.placed kind).map Prod.snd →
      (Hole.Walker.walk ⟨{ foreign := kind.foreign }, 0⟩ p).torn q = false

variable {strings : TemplateStrings} {kind : TemplateKind} {tokens : List (Token × Span)}

theorem ofStrings_eq (strings : TemplateStrings) (kind : TemplateKind) :
    Scan.ofStrings strings kind =
      Scan.ofFragments { foreign := kind.foreign } strings.first strings.rest := by
  cases kind <;> rfl

/-- The holes of a template are of the kinds that the tokens of its markup say. -/
theorem holes_agree
    (htokens : tokenize (kind.wrap (Scan.ofStrings strings kind).markup) = .ok tokens)
    (h : strings.Straight kind) :
    (strings.placed kind).map Prod.fst = (Scan.ofStrings strings kind).holes ∧
      ∀ x ∈ strings.placed kind,
        x.1.Agrees (kind.wrap (Scan.ofStrings strings kind).markup).toList (kind.inner tokens) x.2 := by
  constructor
  · rw [placed, Scan.map_fst_placed, ofStrings_eq]
  intro x hx
  have hlexed := Lexed.of_tokenize htokens
  have htext : (kind.wrap (Scan.ofStrings strings kind).markup).toList =
      kind.opening.toList ++ strings.read kind := by
    rw [TemplateKind.wrap, String.toList_append, String.toList_append, List.append_assoc, read]
  have hsound : Hole.Scanner.Sound { foreign := kind.foreign } := ⟨rfl, trivial⟩
  have hread : strings.read kind =
      (Scan.ofFragments { foreign := kind.foreign } strings.first strings.rest).markup.toList ++
        kind.closing.toList := by
    rw [read, ofStrings_eq]
  have hwhole := h.whole
  rw [hread] at hwhole
  obtain ⟨p, q, hpq, ho, hhole, hwritten⟩ := Scan.placed_walk hsound .same hwhole x hx
  rw [← hread] at hpq
  have hout : Hole.Walker.Outside ⟨{ foreign := kind.foreign }, 0⟩ kind.foreign
      (strings.read kind) := ⟨rfl, rfl, .inl rfl⟩
  have hsees := hlexed.sees htext (Text.byteSize_toList _) (.inl hout) h.follows p q hpq (.inr hout)
  have horder := hlexed.inOrder
  have hsize : kind.opening.utf8ByteSize + byteSize (strings.read kind) =
      byteSize (kind.wrap (Scan.ofStrings strings kind).markup).toList := by
    rw [htext, Text.byteSize_append, Text.byteSize_toList]
  rw [← read, hsize] at horder
  rw [ho] at hsees
  have hagrees := Hole.Walker.agrees hsees horder hwritten
    (h.whole p q hpq (ho ▸ List.mem_map_of_mem hx))
  rwa [hhole] at hagrees

/-- A list whose class and items are holes, with a hole in a comment. -/
def listing : TemplateStrings := ⟨⟨0⟩, "<ul class=", ["><!-- ", " -->", "</ul>"]⟩

theorem listing_agrees : listing.Straight .svg ∧
    (Scan.ofStrings listing .svg).holes = [.attribute 0 "class", .closed .comment, .node] ∧
    ∃ tokens, tokenize (TemplateKind.svg.wrap (Scan.ofStrings listing .svg).markup) = .ok tokens ∧
      ∀ x ∈ listing.placed .svg,
        x.1.Agrees (TemplateKind.svg.wrap (Scan.ofStrings listing .svg).markup).toList
          (TemplateKind.svg.inner tokens) x.2 := by
  have hstraight : listing.Straight .svg := ⟨by decide +kernel, by decide +kernel⟩
  have hread :
      (tokenize (TemplateKind.svg.wrap (Scan.ofStrings listing .svg).markup)).isOk = true := by
    cbv
  cases htokens : tokenize (TemplateKind.svg.wrap (Scan.ofStrings listing .svg).markup) with
  | ok tokens =>
    exact ⟨hstraight, by decide +kernel, tokens, rfl, (holes_agree htokens hstraight).2⟩
  | error errors =>
    rw [htokens] at hread
    cases hread

/-- A hole behind a `</` that is text. -/
def stray : TemplateStrings := ⟨⟨0⟩, "a </ b ", [" c"]⟩

theorem stray_disagrees : ∃ tokens,
    tokenize (TemplateKind.html.wrap (Scan.ofStrings stray .html).markup) = .ok tokens ∧
      ¬ ∀ x ∈ stray.placed .html,
        x.1.Agrees (TemplateKind.html.wrap (Scan.ofStrings stray .html).markup).toList
          (TemplateKind.html.inner tokens) x.2 := by
  refine ⟨[(.text "a ", ⟨0, 2⟩), (.text "<", ⟨2, 3⟩), (.text "/ b  c", ⟨3, 9⟩)], by cbv, fun h => ?_⟩
  have hplaced : stray.placed .html = [(.closed .declaration, 7)] := by decide +kernel
  have hagrees := h (.closed .declaration, 7) (by rw [hplaced]; exact List.mem_singleton_self _)
  exact (hagrees.closed .declaration rfl).2 (.text "/ b  c", ⟨3, 9⟩) (by simp [TemplateKind.inner])
    ⟨by decide, by decide⟩ trivial

end TemplateStrings

end LiveMarkup
