import LiveMarkup.Proofs.Template.Agreeing
import LiveMarkup.Proofs.Template.Owning
import LiveMarkup.Proofs.Template.Ranges

set_option autoImplicit false

/-!
Where the markers of holes land. A scanner that is not led astray finds every hole in an attribute
in the value where its marker is; so the holes of an element are those of the values in its start
tag, one value after the other, and between two holes of a value there are no others.
-/

namespace LiveMarkup

open Markup
open Markup.TagPiece (mem_valueSpans)
open Template (attributeHoles mem_attributeHoles sorted_attributeHoles pairwise_zipIdx)
open Text (byteSize sameName)

/-- Holes in the order of their values are told by their members. -/
theorem AttributeHole.eq_of_sorted {holes holes' : List AttributeHole}
    (hs : holes.Pairwise (·.value < ·.value)) (hs' : holes'.Pairwise (·.value < ·.value))
    (hmem : ∀ hole, hole ∈ holes ↔ hole ∈ holes') : holes = holes' := by
  have hnodup {l : List AttributeHole} (hl : l.Pairwise (·.value < ·.value)) : l.Nodup :=
    hl.imp fun hlt he => Nat.ne_of_lt hlt (congrArg _ he)
  exact ((List.perm_ext_iff_of_nodup (hnodup hs) (hnodup hs')).2 hmem).eq_of_pairwise
    (fun x y _ _ hxy hyx => absurd hxy (Nat.lt_asymm hyx)) hs hs'

/-- The attributes' holes whose markers are at a place. -/
def landed (placed : List (Hole × Nat)) (place : Option Span) : List AttributeHole :=
  placed.zipIdx.filterMap fun ((hole, o), k) =>
    match hole, place with
    | .attribute _ name, some span => if span.Covers o then some ⟨name, k⟩ else none
    | _, _ => none

section Landed

variable {placed : List (Hole × Nat)} {place : Option Span} {hole : AttributeHole}

theorem mem_landed : hole ∈ landed placed place ↔
    ∃ span o element, place = some span ∧ span.Covers o ∧
      placed[hole.value]? = some (.attribute element hole.name, o) := by
  simp only [landed, List.mem_filterMap, Prod.exists, List.mk_mem_zipIdx_iff_getElem?]
  constructor
  · rintro ⟨found, o, k, hk, hfound⟩
    split at hfound
    · obtain ⟨hcovers, rfl⟩ := by simpa using hfound
      exact ⟨_, o, _, rfl, hcovers, hk⟩
    · cases hfound
  · rintro ⟨span, o, element, rfl, hcovers, hk⟩
    exact ⟨_, o, hole.value, hk, by simp [hcovers]⟩

theorem sorted_landed (placed : List (Hole × Nat)) (place : Option Span) :
    (landed placed place).Pairwise (·.value < ·.value) := by
  have hvalue {found : Hole} {o k : Nat} {hole : AttributeHole}
      (h : (match found, place with
        | .attribute _ name, some span =>
          if span.Covers o then some (⟨name, k⟩ : AttributeHole) else none
        | _, _ => none) = some hole) : hole.value = k := by
    split at h
    · obtain ⟨-, heq⟩ := Option.ite_none_right_eq_some.1 h
      rw [← Option.some.inj heq]
    · cases h
  refine (pairwise_zipIdx placed).filterMap _ fun x y hxy hole hx hole' hy => ?_
  rw [hvalue hx, hvalue hy]
  exact hxy

end Landed

namespace Scan

theorem placed_cons (s : Hole.Scanner) (start : Nat) (first next : String) (rest : List String) :
    placed s start first (next :: rest) =
      ((s.feed first.toList).hole.1, start + first.utf8ByteSize) ::
        placed (s.feed first.toList).hole.2.2
          (start + first.utf8ByteSize + (s.feed first.toList).hole.2.1.utf8ByteSize) next rest :=
  rfl

theorem le_placed {s : Hole.Scanner} {start : Nat} {first : String} {rest : List String} :
    ∀ x ∈ placed s start first rest, start ≤ x.2 := by
  induction rest generalizing s start first with
  | nil => exact nofun
  | cons next rest ih =>
    rw [placed_cons]
    refine List.forall_mem_cons.2 ⟨Nat.le_add_right _ _, fun x hx => ?_⟩
    have := ih x hx
    omega

/-- The holes are placed in order; behind one between nodes its marker is written. -/
theorem placed_sorted (s : Hole.Scanner) (start : Nat) (first : String) (rest : List String) :
    (placed s start first rest).Pairwise fun x y => x.2 ≤ y.2 ∧ (x.1 = .node → x.2 < y.2) := by
  induction rest generalizing s start first with
  | nil => exact .nil
  | cons next rest ih =>
    rw [placed_cons]
    refine List.pairwise_cons.2 ⟨fun y hy => ?_, ih _ _ _⟩
    have hle := le_placed y hy
    refine ⟨Nat.le_trans (Nat.le_add_right _ _) hle, fun hnode => ?_⟩
    have hwritten : (s.feed first.toList).hole.2.1 = nodeMarker := by
      generalize s.feed first.toList = s at hnode
      obtain ⟨state, _, _, _, _⟩ := s
      cases state <;> first | rfl | cases hnode
    rw [hwritten] at hle
    have hpos : 0 < nodeMarker.utf8ByteSize := by decide
    exact Nat.lt_of_lt_of_le (Nat.lt_add_of_pos_right hpos) hle

end Scan

namespace TemplateStrings

variable (strings : TemplateStrings) (kind : TemplateKind)

/-- The text that a template's markup is read from. -/
def text : List Char := (kind.wrap (Scan.ofStrings strings kind).markup).toList

/-- The tokens of a template's markup. -/
def tokens : List (Token × Span) :=
  kind.inner (Lexing.ofMarkup (kind.wrap (Scan.ofStrings strings kind).markup)).tokens

/-- The attributes in a start tag, named as in the tree, with the holes in their values. -/
def attributesAt (foreign : Bool) (span : Span) : AttributeHole.Written :=
  (writtenAt (strings.text kind) span).map fun x =>
    (Builder.named foreign x.1, landed (strings.placed kind) x.2)

variable {strings kind}

theorem text_eq : strings.text kind = kind.opening.toList ++ strings.read kind := by
  rw [text, TemplateKind.wrap, String.toList_append, String.toList_append, List.append_assoc, read]

theorem map_fst_placed :
    (strings.placed kind).map Prod.fst = (Scan.ofStrings strings kind).holes := by
  rw [placed, Scan.map_fst_placed, ofStrings_eq]

theorem getElem?_holes {k : Nat} {hole : Hole} :
    (Scan.ofStrings strings kind).holes[k]? = some hole ↔
      ∃ o, (strings.placed kind)[k]? = some (hole, o) := by
  rw [← map_fst_placed, List.getElem?_map, Option.map_eq_some_iff]
  simp

theorem placed_mono {i k : Nat} {x y : Hole × Nat} (hi : (strings.placed kind)[i]? = some x)
    (hk : (strings.placed kind)[k]? = some y) (h : i ≤ k) : x.2 ≤ y.2 := by
  obtain ⟨hlt, rfl⟩ := List.getElem?_eq_some_iff.1 hi
  obtain ⟨hlt', rfl⟩ := List.getElem?_eq_some_iff.1 hk
  rcases Nat.eq_or_lt_of_le h with rfl | h
  · exact Nat.le_refl _
  · exact (List.pairwise_iff_getElem.1 (Scan.placed_sorted _ _ _ _) i k hlt hlt' h).1

section Reading

variable (hread : (Lexing.ofMarkup (kind.wrap (Scan.ofStrings strings kind).markup)).errors = [])

include hread

theorem lexed : Lexed kind.opening.utf8ByteSize kind.foreign (strings.read kind)
    (strings.tokens kind) := by
  refine Lexed.of_tokenize ?_
  rw [tokenize, if_pos (List.isEmpty_iff.2 hread)]

theorem inOrder : InOrder kind.opening.utf8ByteSize (byteSize (strings.text kind))
    (strings.tokens kind) := by
  rw [text_eq, Text.byteSize_append, Text.byteSize_toList]
  exact (lexed hread).inOrder

theorem spelt {tag : StartTag} {span : Span}
    (ht : (Token.startTag tag, span) ∈ strings.tokens kind) :
    ∃ name pieces, tag.SpeltBy (strings.text kind) span name pieces :=
  text_eq ▸ (lexed hread).spelt _ (Text.byteSize_toList _) ht

/-- Every hole is of the kind that the tokens say. -/
theorem placed_agrees (h : strings.Straight kind) {x : Hole × Nat}
    (hx : x ∈ strings.placed kind) : x.1.Agrees (strings.text kind) (strings.tokens kind) x.2 := by
  have hsound : Hole.Scanner.Sound { foreign := kind.foreign } := ⟨rfl, trivial⟩
  have hreads : strings.read kind =
      (Scan.ofFragments { foreign := kind.foreign } strings.first strings.rest).markup.toList ++
        kind.closing.toList := by
    rw [read, ofStrings_eq]
  obtain ⟨p, q, hpq, ho, hhole, hwritten⟩ :=
    Scan.placed_walk hsound .same (hreads ▸ h.whole) x hx
  rw [← hreads] at hpq
  have hout : Hole.Walker.Outside ⟨{ foreign := kind.foreign }, 0⟩ kind.foreign
      (strings.read kind) := ⟨rfl, rfl, .inl rfl⟩
  have hsees := (lexed hread).sees text_eq (Text.byteSize_toList _) (.inl hout) h.follows p q hpq
    (.inr hout)
  rw [ho] at hsees
  exact hhole ▸ Hole.Walker.agrees hsees (inOrder hread) hwritten
    (h.whole p q hpq (ho ▸ List.mem_map_of_mem hx))

section Values

variable (h : strings.Straight kind) {element o : Nat} {tag : StartTag} {span place : Span}
  {a : Attribute} {foreign : Bool}

include h

/-- A hole in an attribute is in a value of its start tag. -/
theorem exists_written {name : String}
    (hx : (Hole.attribute element name, o) ∈ strings.placed kind) : ∃ tag span place,
      (startTags (strings.tokens kind))[element]? = some (tag, span) ∧
        (∃ a, (a, some place) ∈ writtenAt (strings.text kind) span) ∧ place.Covers o := by
  obtain ⟨tag, span, word, pieces, place, htag, hspelt, hvalue, hcovers⟩ :=
    ((placed_agrees hread h hx).value element name).1 rfl
  obtain ⟨a, ha, -⟩ := mem_valueSpans.1 hvalue
  exact ⟨tag, span, place, htag, ⟨a, hspelt.writtenAt_eq ▸ ha⟩, hcovers⟩

/-- What lands in a value is a hole of that attribute. -/
theorem eq_of_written (htag : (startTags (strings.tokens kind))[element]? = some (tag, span))
    (ha : (a, some place) ∈ writtenAt (strings.text kind) span) (hcovers : place.Covers o)
    {hole : Hole} (hx : (hole, o) ∈ strings.placed kind) : hole = .attribute element a.name := by
  obtain ⟨word, pieces, hspelt⟩ := spelt hread (mem_of_startTags htag)
  have hvalue := mem_valueSpans.2 ⟨a, hspelt.writtenAt_eq ▸ ha, rfl⟩
  exact ((placed_agrees hread h hx).value element a.name).2
    ⟨tag, span, word, pieces, place, htag, hspelt, hvalue, hcovers⟩

/-- Between two holes of a value there are no others. -/
theorem landed_range (htag : (startTags (strings.tokens kind))[element]? = some (tag, span))
    {place : Option Span} (ha : (a, place) ∈ writtenAt (strings.text kind) span) :
    ∃ first, (landed (strings.placed kind) place).map (·.value) =
      List.range' first (landed (strings.placed kind) place).length := by
  have hmem {k : Nat} (hk : k ∈ (landed (strings.placed kind) place).map (·.value)) :
      ∃ span o hole, place = some span ∧ span.Covers o ∧
        (strings.placed kind)[k]? = some (hole, o) := by
    obtain ⟨hole, hhole, rfl⟩ := List.mem_map.1 hk
    obtain ⟨span, o, element, hplace, hcovers, hget⟩ := mem_landed.1 hhole
    exact ⟨span, o, _, hplace, hcovers, hget⟩
  obtain ⟨first, hrange⟩ := eq_range'_of_convex
    (List.pairwise_map.2 (sorted_landed (strings.placed kind) place))
    fun i hi k hk j hij hjk => by
      obtain ⟨span, o, hole, rfl, ⟨hle, -⟩, hi⟩ := hmem hi
      obtain ⟨_, o', hole', he, ⟨-, hlt⟩, hk⟩ := hmem hk
      obtain rfl := Option.some.inj he
      obtain ⟨hlast, -⟩ := List.getElem?_eq_some_iff.1 hk
      obtain ⟨⟨hole'', o''⟩, hj⟩ : ∃ x, (strings.placed kind)[j]? = some x :=
        ⟨_, List.getElem?_eq_getElem (Nat.lt_trans hjk hlast)⟩
      have hcovers : span.Covers o'' := ⟨Nat.le_trans hle (placed_mono hi hj hij.le),
        Nat.lt_of_le_of_lt (placed_mono hj hk hjk.le) hlt⟩
      obtain rfl := eq_of_written hread h htag ha hcovers (List.mem_of_getElem? hj)
      exact List.mem_map.2 ⟨⟨a.name, j⟩, mem_landed.2 ⟨span, o'', element, rfl, hcovers, hj⟩, rfl⟩
  exact ⟨first, by rwa [List.length_map] at hrange⟩

/-- The holes in a value are of the name of its attribute. -/
theorem sameName_of_attributesAt
    (htag : (startTags (strings.tokens kind))[element]? = some (tag, span)) :
    ∀ x ∈ strings.attributesAt kind foreign span, ∀ hole ∈ x.2,
      sameName hole.name x.1.name = true := by
  intro x hx hole hhole
  obtain ⟨⟨a, place⟩, ha, rfl⟩ := List.mem_map.1 hx
  obtain ⟨value, o, e, rfl, hcovers, hget⟩ := mem_landed.1 hhole
  have hattribute := eq_of_written hread h htag ha hcovers (List.mem_of_getElem? hget)
  obtain ⟨-, hname⟩ := Hole.attribute.inj hattribute
  rw [hname]
  exact Builder.sameName_named foreign a

omit h in
/-- Values are apart, and so are the holes in them. -/
theorem sorted_written (htag : (startTags (strings.tokens kind))[element]? = some (tag, span)) :
    ((writtenAt (strings.text kind) span).flatMap
      fun x => landed (strings.placed kind) x.2).Pairwise (·.value < ·.value) := by
  obtain ⟨word, pieces, hspelt⟩ := spelt hread (mem_of_startTags htag)
  rw [hspelt.writtenAt_eq, List.pairwise_flatMap]
  refine ⟨fun x _ => sorted_landed _ _, (TagPiece.apart_writtenAll _ _).imp
    fun {x y} hapart hole hx hole' hy => ?_⟩
  obtain ⟨value, o, _, hplace, ⟨-, hlt⟩, hget⟩ := mem_landed.1 hx
  obtain ⟨value', o', _, hplace', ⟨hle, -⟩, hget'⟩ := mem_landed.1 hy
  have hstop := hapart value hplace value' hplace'
  by_contra hnot
  have hback : o' ≤ o := placed_mono hget' hget (Nat.le_of_not_lt hnot)
  omega

/-- The holes of an element are those in the values of its start tag, one value after the other. -/
theorem attributeHoles_eq
    (htag : (startTags (strings.tokens kind))[element]? = some (tag, span)) (foreign : Bool) :
    attributeHoles (Scan.ofStrings strings kind).holes element =
      (strings.attributesAt kind foreign span).flatMap Prod.snd := by
  rw [attributesAt, List.flatMap_map]
  refine AttributeHole.eq_of_sorted (List.pairwise_map.1 (sorted_attributeHoles _ _))
    (sorted_written hread htag) fun hole => ?_
  rw [mem_attributeHoles, getElem?_holes, List.mem_flatMap]
  constructor
  · rintro ⟨o, hget⟩
    obtain ⟨tag', span', place, htag', ⟨a, ha⟩, hcovers⟩ :=
      exists_written hread h (List.mem_of_getElem? hget)
    obtain ⟨rfl, rfl⟩ := Prod.mk.inj (Option.some.inj (htag'.symm.trans htag))
    exact ⟨_, ha, mem_landed.2 ⟨place, o, element, rfl, hcovers, hget⟩⟩
  · rintro ⟨⟨a, place⟩, ha, hhole⟩
    obtain ⟨value, o, e, rfl, hcovers, hget⟩ := mem_landed.1 hhole
    have hattribute := eq_of_written hread h htag ha hcovers (List.mem_of_getElem? hget)
    obtain ⟨rfl, -⟩ := Hole.attribute.inj hattribute
    exact ⟨o, hget⟩

end Values

end Reading

end TemplateStrings

end LiveMarkup
