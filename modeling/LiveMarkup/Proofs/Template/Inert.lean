import LiveMarkup.Proofs.Template.Landing
import LiveMarkup.Proofs.Template.Tracing

set_option autoImplicit false

/-!
Every hole binds where it is written. Compiling matches holes with markers by counting comments and
by the names of attributes. A marker that is part of a fragment is left alone if no hole between
nodes comes behind it, or if it is in the value of an attribute that no hole could be taken for;
then each part stands at what became of the markers of its own holes.
-/

namespace LiveMarkup

open Markup
open Template (nodeHoles markersOf elementsOf)

/-- Numbers in order that come before all others are the first ones. -/
theorem prefix_of_sorted {some all : List Nat} (hsome : some.Pairwise (· < ·))
    (hall : all.Pairwise (· < ·)) (hsub : some ⊆ all)
    (h : ∀ m ∈ all, m ∈ some ∨ ∀ n ∈ some, n < m) : some <+: all := by
  induction all generalizing some with
  | nil => exact List.eq_nil_of_subset_nil hsub ▸ List.prefix_rfl
  | cons m all ih =>
    cases some with
    | nil => exact List.nil_prefix
    | cons n rest =>
      obtain ⟨hn, hrest⟩ := List.pairwise_cons.1 hsome
      obtain ⟨hm, hall⟩ := List.pairwise_cons.1 hall
      have hle : m ≤ n := by
        rcases List.mem_cons.1 (hsub List.mem_cons_self) with rfl | hmem
        · exact Nat.le_refl n
        · exact (hm n hmem).le
      obtain rfl : m = n := by
        rcases h m List.mem_cons_self with hmem | hlt
        · rcases List.mem_cons.1 hmem with rfl | hmem
          · rfl
          · have := hn m hmem
            omega
        · have := hlt n List.mem_cons_self
          omega
      refine List.cons_prefix_cons.2 ⟨rfl, ih hrest hall (fun k hk => ?_) fun k hk => ?_⟩
      · exact (List.mem_cons.1 (hsub (List.mem_cons_of_mem _ hk))).resolve_left
          (Nat.ne_of_gt (hn k hk))
      · refine (h k (List.mem_cons_of_mem _ hk)).imp (fun hmem => ?_)
          fun hlt l hl => hlt l (List.mem_cons_of_mem _ hl)
        exact (List.mem_cons.1 hmem).resolve_left (Nat.ne_of_gt (hm k hk))

/-- The holes between nodes, with their places. -/
def nodePlaces (placed : List (Hole × Nat)) : List (Nat × Nat) :=
  placed.zipIdx.filterMap fun (x, k) => if x.1 = .node then some (k, x.2) else none

/-- Where the comments begin that are markers. -/
def markerPlaces (tokens : List (Token × Span)) : List Nat :=
  tokens.filterMap fun t => if t.1 = .comment marker then some t.2.start else none

theorem mem_nodePlaces {placed : List (Hole × Nat)} {k o : Nat} :
    (k, o) ∈ nodePlaces placed ↔ placed[k]? = some (.node, o) := by
  simp only [nodePlaces, List.mem_filterMap, Prod.exists, List.mk_mem_zipIdx_iff_getElem?,
    Option.ite_none_right_eq_some, Option.some.injEq, Prod.mk.injEq]
  constructor
  · rintro ⟨hole, o, k, h, rfl, rfl, rfl⟩
    exact h
  · exact fun h => ⟨_, _, _, h, rfl, rfl, rfl⟩

theorem map_fst_nodePlaces (placed : List (Hole × Nat)) :
    (nodePlaces placed).map Prod.fst = nodeHoles (placed.map Prod.fst) := by
  rw [nodePlaces, nodeHoles, List.map_filterMap, List.zipIdx_map, List.filterMap_map]
  refine List.filterMap_congr fun x _ => ?_
  simp only [Function.comp_apply, Prod.map]
  split <;> simp_all

theorem length_markerPlaces (tokens : List (Token × Span)) :
    (markerPlaces tokens).length = (tokens.map Prod.fst).count (.comment marker) := by
  induction tokens with
  | nil => rfl
  | cons t ts ih =>
    rw [List.map_cons, List.count_cons, ← ih, markerPlaces, List.filterMap_cons]
    by_cases ht : t.1 = .comment marker
    · simp [ht, markerPlaces]
    · simp [ht, markerPlaces]

theorem sorted_markerPlaces {start stop : Nat} {tokens : List (Token × Span)}
    (h : InOrder start stop tokens) : (markerPlaces tokens).Pairwise (· < ·) := by
  have hstarts : tokens.Pairwise fun t t' => t.2.start < t'.2.start :=
    h.apart.imp_of_mem fun ht _ hle => Nat.lt_of_lt_of_le (h.bounds _ ht).2.1 hle
  refine hstarts.filterMap _ fun t t' hlt o ho o' ho' => ?_
  obtain ⟨-, ho⟩ := Option.ite_none_right_eq_some.1 ho
  obtain ⟨-, ho'⟩ := Option.ite_none_right_eq_some.1 ho'
  rwa [← Option.some.inj ho, ← Option.some.inj ho']

namespace TemplateStrings

/-- No marker of a fragment is taken for that of a hole: in comments, all those of holes come first,
and in the start tags of the parsed tree's elements, no attribute takes holes of another one. -/
structure Unmistakable (strings : TemplateStrings) (kind : TemplateKind) (labels : List NodeKind) :
    Prop where
  comments : ∀ span, (Token.comment marker, span) ∈ strings.tokens kind →
    (Hole.node, span.start) ∈ strings.placed kind ∨
      ∀ o, (Hole.node, o) ∈ strings.placed kind → o < span.start
  attributes : ∀ tag span index foreign,
    Became (strings.tokens kind) labels (.startTag tag, span) index →
    labels[index]? = some (tag.element foreign) →
      AttributeHole.Unmistaken (strings.attributesAt kind foreign span)

variable {strings : TemplateStrings} {kind : TemplateKind} {labels : List NodeKind}

theorem sorted_nodePlaces (strings : TemplateStrings) (kind : TemplateKind) :
    ((nodePlaces (strings.placed kind)).map Prod.snd).Pairwise (· < ·) := by
  have hsorted := Scan.placed_sorted { foreign := kind.foreign } kind.opening.utf8ByteSize
    strings.first strings.rest
  rw [← placed, ← List.zipIdx_map_fst 0 (strings.placed kind), List.pairwise_map] at hsorted
  rw [List.pairwise_map]
  refine hsorted.filterMap _ fun x y hxy v hv w hw => ?_
  obtain ⟨hnode, hv⟩ := Option.ite_none_right_eq_some.1 hv
  obtain ⟨-, hw⟩ := Option.ite_none_right_eq_some.1 hw
  rw [← Option.some.inj hv, ← Option.some.inj hw]
  exact hxy.2 hnode

section Matching

variable (hread : (Lexing.ofMarkup (kind.wrap (Scan.ofStrings strings kind).markup)).errors = [])
  (h : strings.Straight kind) (hu : strings.Unmistakable kind labels)

include hread h hu

/-- Among the comments that are markers those of holes come first. -/
theorem nodePlaces_prefix :
    (nodePlaces (strings.placed kind)).map Prod.snd <+: markerPlaces (strings.tokens kind) := by
  have hmem {o : Nat} : o ∈ (nodePlaces (strings.placed kind)).map Prod.snd ↔
      (Hole.node, o) ∈ strings.placed kind := by
    rw [List.mem_map]
    constructor
    · rintro ⟨⟨k, o⟩, hk, rfl⟩
      exact List.mem_of_getElem? (mem_nodePlaces.1 hk)
    · intro hm
      obtain ⟨k, hk⟩ := List.getElem?_of_mem hm
      exact ⟨(k, o), mem_nodePlaces.2 hk, rfl⟩
  have hmarker {o : Nat} (ho : o ∈ markerPlaces (strings.tokens kind)) :
      ∃ span, (Token.comment marker, span) ∈ strings.tokens kind ∧ span.start = o := by
    obtain ⟨⟨t, span⟩, ht, he⟩ := List.mem_filterMap.1 ho
    obtain ⟨hmarker, hstart⟩ := Option.ite_none_right_eq_some.1 he
    exact ⟨span, hmarker ▸ ht, Option.some.inj hstart⟩
  refine prefix_of_sorted (sorted_nodePlaces strings kind) (sorted_markerPlaces (inOrder hread))
    (fun o ho => ?_) fun o ho => ?_
  · refine List.mem_filterMap.2 ⟨_, ((placed_agrees hread h (hmem.1 ho)).node).1 rfl, ?_⟩
    simp
  · obtain ⟨span, ht, rfl⟩ := hmarker ho
    exact (hu.comments span ht).imp hmem.2 fun hlt n hn => hlt n (hmem.1 hn)

/-- The hole that a marker comment is matched to is the one that it is written for. -/
theorem nodeHoles_eq_some {front back : List (Token × Span)} {span : Span} {before : List NodeKind}
    (htokens : strings.tokens kind = front ++ (.comment marker, span) :: back)
    (hsame : SameLandmarks (front.map Prod.fst) before) {k : Nat} :
    (nodeHoles (Scan.ofStrings strings kind).holes)[markersOf before]? = some k ↔
      (strings.placed kind)[k]? = some (.node, span.start) := by
  have hplaces : markerPlaces (strings.tokens kind) =
      markerPlaces front ++ span.start :: markerPlaces back := by
    simp [htokens, markerPlaces]
  have hat : (markerPlaces (strings.tokens kind))[markersOf before]? = some span.start := by
    rw [hplaces, hsame.markersOf_eq, ← length_markerPlaces,
      List.getElem?_append_right (Nat.le_refl _)]
    simp
  have hplace {i k o : Nat} (hi : (nodePlaces (strings.placed kind))[i]? = some (k, o)) :
      (markerPlaces (strings.tokens kind))[i]? = some o := by
    obtain ⟨more, hmore⟩ := nodePlaces_prefix hread h hu
    have hsnd : ((nodePlaces (strings.placed kind)).map Prod.snd)[i]? = some o := by
      rw [List.getElem?_map, hi]
      rfl
    rw [← hmore, List.getElem?_append_left (List.getElem?_eq_some_iff.1 hsnd).1, hsnd]
  rw [← map_fst_placed, ← map_fst_nodePlaces, List.getElem?_map, ← mem_nodePlaces]
  constructor
  · intro hk
    obtain ⟨⟨k, o⟩, hget, rfl⟩ := Option.map_eq_some_iff.1 hk
    rw [← Option.some.inj ((hplace hget).symm.trans hat)]
    exact List.mem_of_getElem? hget
  · intro hk
    obtain ⟨i, hi⟩ := List.getElem?_of_mem hk
    have hnodup := (sorted_markerPlaces (inOrder hread)).imp Nat.ne_of_lt
    obtain rfl : markersOf before = i :=
      (List.getElem?_inj (List.getElem?_eq_some_iff.1 hat).1 hnodup).1 (hat.trans (hplace hi).symm)
    rw [hi]
    rfl

end Matching

/-- The attributes that an element gets, each with the holes that land in its value. -/
theorem firsts_attributesAt (strings : TemplateStrings) (kind : TemplateKind) (foreign : Bool)
    (span : Span) : firsts [] (strings.attributesAt kind foreign span) =
      (keptOf foreign (writtenAt (strings.text kind) span)).map fun x =>
        (x.1, landed (strings.placed kind) x.2) := by
  rw [keptOf, ← firsts_map, List.map_map]
  rfl

section Elements

variable {tag : StartTag} {span : Span} {foreign : Bool} {before : List NodeKind}
  (hread : (Lexing.ofMarkup (kind.wrap (Scan.ofStrings strings kind).markup)).errors = [])
  (h : strings.Straight kind)
  (htag : (startTags (strings.tokens kind))[elementsOf before]? = some (tag, span))
  (hu : AttributeHole.Unmistaken (strings.attributesAt kind foreign span))

include hread htag

theorem element_eq (foreign : Bool) : tag.element foreign =
    .element (Builder.elementOf tag foreign).1
      ((firsts [] (strings.attributesAt kind foreign span)).map Prod.fst) := by
  obtain ⟨name, pieces, hspelt⟩ := spelt hread (mem_of_startTags htag)
  rw [StartTag.element, ← map_fst_keptOf hspelt, firsts_attributesAt, List.map_map]
  rfl

include h hu

/-- The parts of an element are those of the attributes that it gets, each with the values whose
markers land in it. -/
theorem mem_foundAt_element {y : TemplatePart × List Nat} :
    y ∈ Template.foundAt (Scan.ofStrings strings kind).holes before (tag.element foreign) ↔
      ∃ x ∈ keptOf foreign (writtenAt (strings.text kind) span),
        AttributeHole.partOf before.length
          (x.1, (landed (strings.placed kind) x.2).map (·.value)) = some y := by
  rw [element_eq hread htag, Template.foundAt, attributeHoles_eq hread h htag foreign,
    hu.mem_parts (sameName_of_attributesAt hread h htag), firsts_attributesAt]
  simp only [List.mem_map, exists_exists_and_eq_and]

theorem leftAt_element :
    Template.leftAt (Scan.ofStrings strings kind).holes before (tag.element foreign) =
      .element (Builder.elementOf tag foreign).1
        (((keptOf foreign (writtenAt (strings.text kind) span)).filter fun x =>
          (landed (strings.placed kind) x.2).isEmpty).map Prod.fst) := by
  rw [element_eq hread htag, Template.leftAt, attributeHoles_eq hread h htag foreign,
    hu.spared_eq (sameName_of_attributesAt hread h htag), firsts_attributesAt, List.filter_map,
    List.map_map]
  rfl

end Elements

end TemplateStrings

namespace Template

section Placing

open TemplateStrings (placed_agrees inOrder nodeHoles_eq_some landed_range mem_foundAt_element
  leftAt_element)

variable {strings : TemplateStrings} {kind : TemplateKind} {labels before after : List NodeKind}
  {k : NodeKind} {p : TemplatePart} {values : List Nat}
  (hread : (Lexing.ofMarkup (kind.wrap (Scan.ofStrings strings kind).markup)).errors = [])
  (hs : strings.Straight kind) (hu : strings.Unmistakable kind labels)

include hread hs hu

/-- A part between nodes is found at what the marker of its hole became. -/
theorem became_of_node (hsame : SameLandmarks ((strings.tokens kind).map Prod.fst) labels)
    (hlabels : labels = before ++ k :: after)
    (hx : (p, values) ∈ foundAt (Scan.ofStrings strings kind).holes before k)
    (hnode : p.kind = .node) : ∃ o, (strings.placed kind)[p.valueIndex]? = some (.node, o) ∧
      Became (strings.tokens kind) labels
        (.comment marker, ⟨o, o + nodeMarker.utf8ByteSize⟩) p.index := by
  obtain ⟨rfl, v, hv, rfl⟩ := node_of_foundAt hx hnode
  obtain ⟨⟨token, span⟩, front, back, htokens, hbecomes, hfront⟩ :=
    SameLandmarks.exists_token (hlabels ▸ hsame) rfl
  obtain rfl : token = .comment marker := by
    cases hbecomes
    rfl
  have hm := matched_foundAt hx
  obtain rfl : v = p.valueIndex := Option.some.inj hm.first
  have hplaced := (nodeHoles_eq_some hread hs hu htokens hfront).1 hv
  -- The comment is as long as the marker, for both begin at one byte.
  have hself : (Token.comment marker, span) ∈ strings.tokens kind := by simp [htokens]
  have hmarker := (placed_agrees hread hs (List.mem_of_getElem? hplaced)).node.1 rfl
  have hpos : 0 < nodeMarker.utf8ByteSize := by decide
  obtain ⟨-, hspan⟩ := Prod.mk.inj <| (inOrder hread).eq_of_mem hself hmarker
    ⟨Nat.le_refl _, ((inOrder hread).bounds _ hself).2.1⟩
    ⟨Nat.le_refl _, Nat.lt_add_of_pos_right hpos⟩
  rw [hspan] at htokens
  exact ⟨span.start, hplaced, front, back, before, _, after, htokens, hlabels, hm.index.symm,
    .comment, hfront⟩

/-- A part of an attribute is found at the element whose start tag has it, and takes the values
whose markers land in it. -/
theorem became_of_attribute (hsame : SameLandmarks ((strings.tokens kind).map Prod.fst) labels)
    (hlabels : labels = before ++ k :: after)
    (hx : (p, values) ∈ foundAt (Scan.ofStrings strings kind).holes before k) {name : String}
    (hname : p.name? = some name) : ∃ tag span foreign x,
      Became (strings.tokens kind) labels (.startTag tag, span) p.index ∧
        labels[p.index]? = some (tag.element foreign) ∧
        x ∈ keptOf foreign (writtenAt (strings.text kind) span) ∧ x.1.name = name ∧
        p.values = (landed (strings.placed kind) x.2).map (·.value) := by
  have hm := matched_foundAt hx
  have helement := isElement_of_foundAt hx hname
  obtain ⟨⟨token, span⟩, front, back, htokens, hbecomes, hfront⟩ :=
    SameLandmarks.exists_token (hlabels ▸ hsame) (by cases k <;> first | rfl | cases helement)
  cases hbecomes with
  | comment => cases helement
  | @startTag tag foreign =>
    have hb : Became (strings.tokens kind) labels (.startTag tag, span) p.index :=
      ⟨front, back, before, _, after, htokens, hlabels, hm.index.symm, .startTag foreign, hfront⟩
    have hlabel : labels[p.index]? = some (tag.element foreign) := by
      rw [hlabels, hm.index]
      simp
    have htag := startTags_at htokens hfront
    obtain ⟨x, hkept, hpart⟩ := (mem_foundAt_element hread hs htag
      (hu.attributes tag span _ foreign hb hlabel)).1 hx
    obtain ⟨hvalues, -, hname', -⟩ := AttributeHole.partOf_eq_some hpart
    change values = (landed (strings.placed kind) x.2).map (·.value) at hvalues
    obtain ⟨a, ha⟩ := exists_of_mem_keptOf hkept
    obtain ⟨first, hrange⟩ := landed_range hread hs htag ha
    refine ⟨tag, span, foreign, x, hb, hlabel, hkept,
      Option.some.inj (hname'.symm.trans hname), ?_⟩
    have hlength : values.length = (landed (strings.placed kind) x.2).length := by
      rw [hvalues, List.length_map]
    rw [← hvalues, ← hlength] at hrange
    exact (hm.values_eq hrange).trans hvalues

/-- A comment that is no hole's marker is left as it is. -/
theorem leftAt_comment {content : String} {span : Span} {front back : List (Token × Span)}
    (htokens : strings.tokens kind = front ++ (.comment content, span) :: back)
    (hfront : SameLandmarks (front.map Prod.fst) before)
    (hno : (Hole.node, span.start) ∉ strings.placed kind) :
    leftAt (Scan.ofStrings strings kind).holes before (.comment content) = .comment content := by
  rw [leftAt, if_neg]
  rintro ⟨rfl, hlt⟩
  have hplaced := (nodeHoles_eq_some hread hs hu htokens hfront).1 (List.getElem?_eq_getElem hlt)
  exact hno (List.mem_of_getElem? hplaced)

/-- Every hole between nodes has a part at what its marker became. -/
theorem exists_nodePart (hsame : SameLandmarks ((strings.tokens kind).map Prod.fst) labels)
    {v o : Nat} (hv : (strings.placed kind)[v]? = some (.node, o)) :
    ∃ before after, labels = before ++ .comment marker :: after ∧
      ((⟨.node, before.length, v⟩ : TemplatePart), [v]) ∈
        foundAt (Scan.ofStrings strings kind).holes before (.comment marker) := by
  have hmarker := (placed_agrees hread hs (List.mem_of_getElem? hv)).node.1 rfl
  obtain ⟨index, front, back, before, k, after, htokens, hlabels, -, hbecomes, hfront⟩ :=
    hsame.exists_index hmarker rfl
  obtain rfl := hbecomes.eq_comment
  refine ⟨before, after, hlabels, ?_⟩
  rw [foundAt, if_pos rfl, (nodeHoles_eq_some hread hs hu htokens hfront).2 hv]
  exact List.mem_singleton_self _

end Placing

/-- Every part of a template stands where the markers of its values were written, what holds no
hole's marker is as it was parsed, and no hole that a value can go to is left without a part. -/
structure BoundInPlace (t : Template) (strings : TemplateStrings) (kind : TemplateKind)
    (labels : List NodeKind) : Prop where
  /-- A part between nodes is at what the marker of its own hole became. -/
  node : ∀ p ∈ t.parts, p.kind = .node → ∃ o,
    (strings.placed kind)[p.valueIndex]? = some (.node, o) ∧
      Became (strings.tokens kind) labels
        (.comment marker, ⟨o, o + nodeMarker.utf8ByteSize⟩) p.index
  /-- A part of an attribute takes the values whose markers landed in that attribute. -/
  named : ∀ p ∈ t.parts, ∀ name, p.name? = some name → ∃ tag span foreign x,
    Became (strings.tokens kind) labels (.startTag tag, span) p.index ∧
      labels[p.index]? = some (tag.element foreign) ∧
      x ∈ keptOf foreign (writtenAt (strings.text kind) span) ∧ x.1.name = name ∧
      p.values = (landed (strings.placed kind) x.2).map (·.value)
  comment : ∀ content span index,
    Became (strings.tokens kind) labels (.comment content, span) index →
    (Hole.node, span.start) ∉ strings.placed kind → t.kinds[index]? = some (.comment content)
  /-- An element keeps the attributes in which no hole landed. -/
  element : ∀ tag span index foreign,
    Became (strings.tokens kind) labels (.startTag tag, span) index →
    labels[index]? = some (tag.element foreign) →
      t.kinds[index]? = some (.element (Builder.elementOf tag foreign).1
        (((keptOf foreign (writtenAt (strings.text kind) span)).filter fun x =>
          (landed (strings.placed kind) x.2).isEmpty).map Prod.fst))
  everyNode : ∀ v o, (strings.placed kind)[v]? = some (.node, o) →
    ∃ p ∈ t.parts, p.kind = .node ∧ p.valueIndex = v
  everyNamed : ∀ tag span index foreign,
    Became (strings.tokens kind) labels (.startTag tag, span) index →
    labels[index]? = some (tag.element foreign) →
      ∀ x ∈ keptOf foreign (writtenAt (strings.text kind) span),
        landed (strings.placed kind) x.2 ≠ [] →
          ∃ p ∈ t.parts, p.index = index ∧ p.name? = some x.1.name

/-- Holes bind where they are written if the scanner is not led astray and no marker of a fragment
is taken for that of a hole. -/
theorem boundInPlace_of_compile {strings : TemplateStrings} {kind : TemplateKind}
    {detectDocuments : Bool} {t : Template} {r : Rooted}
    (h : (compile strings kind detectDocuments).outcome = .ok t)
    (hr : (parse kind detectDocuments (Scan.ofStrings strings kind).markup).outcome = .ok r)
    (hs : strings.Straight kind) (hu : strings.Unmistakable kind r.content.labels) :
    t.BoundInPlace strings kind r.content.labels := by
  obtain ⟨r', hparse, hparts, hkinds⟩ := compile_matched h
  obtain rfl : r' = r := Except.ok.inj (hparse.symm.trans hr)
  have hread := errors_of_parse hr
  have hsame : SameLandmarks ((strings.tokens kind).map Prod.fst) r'.content.labels :=
    parse_landmarks hr
  have hfound : ∀ p ∈ t.parts, ∃ values before k after,
      r'.content.labels = before ++ k :: after ∧
        (p, values) ∈ foundAt (Scan.ofStrings strings kind).holes before k := by
    intro p hp
    rw [hparts] at hp
    obtain ⟨⟨p, values⟩, hx, rfl⟩ := List.mem_map.1 hp
    obtain ⟨before, k, after, hlabels, hx⟩ := mem_foundFrom.1 hx
    exact ⟨values, before, k, after, hlabels, hx⟩
  have hpart {p : TemplatePart} {values : List Nat} {before after : List NodeKind} {k : NodeKind}
      (hlabels : r'.content.labels = before ++ k :: after)
      (hx : (p, values) ∈ foundAt (Scan.ofStrings strings kind).holes before k) : p ∈ t.parts :=
    hparts ▸ List.mem_map.2 ⟨_, mem_foundFrom.2 ⟨before, k, after, hlabels, hx⟩, rfl⟩
  constructor
  case node =>
    intro p hp hnode
    obtain ⟨values, before, k, after, hlabels, hx⟩ := hfound p hp
    exact became_of_node hread hs hu hsame hlabels hx hnode
  case named =>
    intro p hp name hname
    obtain ⟨values, before, k, after, hlabels, hx⟩ := hfound p hp
    exact became_of_attribute hread hs hu hsame hlabels hx hname
  case comment =>
    rintro content span index ⟨front, back, before, k, after, htokens, hlabels, rfl, hbecomes,
      hfront⟩ hno
    obtain rfl := hbecomes.eq_comment
    rw [hkinds, hlabels, getElem?_leftFrom, List.nil_append,
      leftAt_comment hread hs hu htokens hfront hno]
  case element =>
    intro tag span index foreign hb hlabel
    obtain ⟨before, after, hlabels, rfl, htag⟩ := hb.startTag hlabel
    rw [hkinds, hlabels, getElem?_leftFrom, List.nil_append, TemplateStrings.leftAt_element hread hs
      htag (hu.attributes tag span _ foreign hb hlabel)]
  case everyNode =>
    intro v o hv
    obtain ⟨before, after, hlabels, hx⟩ := exists_nodePart hread hs hu hsame hv
    exact ⟨_, hpart hlabels hx, rfl, rfl⟩
  case everyNamed =>
    intro tag span index foreign hb hlabel x hx hne
    obtain ⟨before, after, hlabels, rfl, htag⟩ := hb.startTag hlabel
    have hunmistaken := hu.attributes tag span _ foreign hb hlabel
    have hmem : (x.1, landed (strings.placed kind) x.2) ∈
        firsts [] (strings.attributesAt kind foreign span) := by
      rw [TemplateStrings.firsts_attributesAt]
      exact List.mem_map_of_mem hx
    obtain ⟨-, ⟨p, values⟩, hp⟩ := hunmistaken.exists_part hmem hne before.length
    obtain ⟨-, hindex, hname, -⟩ := AttributeHole.partOf_eq_some hp
    exact ⟨p, hpart hlabels ((TemplateStrings.mem_foundAt_element hread hs htag
      hunmistaken).2 ⟨x, hx, hp⟩), hindex, hname⟩

/-- A paragraph with a hole in its class and one inside, and markers that are no holes. -/
def annotated : TemplateStrings :=
  ⟨⟨0⟩, "<p class=", [" title=" ++ marker ++ ">", nodeMarker]⟩

theorem annotated_boundInPlace : annotated.Straight .html ∧ ∃ t r,
    (compile annotated .html true).outcome = .ok t ∧
      (parse .html true (Scan.ofStrings annotated .html).markup).outcome = .ok r ∧
      annotated.Unmistakable .html r.content.labels ∧
      t.kinds = [.fragment, .element "p" [⟨"title", marker⟩], .text "", .comment marker] ∧
      t.BoundInPlace annotated .html r.content.labels := by
  have hs : annotated.Straight .html := ⟨by decide +kernel, by decide +kernel⟩
  have hkinds : (compile annotated .html true).outcome.toOption.map (·.kinds) =
      some [.fragment, .element "p" [⟨"title", marker⟩], .text "", .comment marker] := by
    decide +kernel
  obtain ⟨t, ht, hkinds⟩ := Option.map_eq_some_iff.1 hkinds
  obtain ⟨r, hr, -⟩ := compile_matched (Except.ok_of_toOption ht)
  have htokens : annotated.tokens .html =
      [(.startTag ⟨"p", [⟨"class", marker⟩, ⟨"title", marker⟩], false⟩, ⟨0, 41⟩),
        (.comment marker, ⟨41, 60⟩), (.comment marker, ⟨60, 79⟩)] := by
    cbv
  have hplaced : annotated.placed .html = [(.attribute 0 "class", 9), (.node, 41)] := by
    decide +kernel
  have hwritten (foreign : Bool) : annotated.attributesAt .html foreign ⟨0, 41⟩ =
      [(⟨"class", marker⟩, [⟨"class", 0⟩]), (⟨"title", marker⟩, [])] := by
    cases foreign <;> decide +kernel
  have hu : annotated.Unmistakable .html r.content.labels := by
    constructor
    case comments =>
      intro span hspan
      simp only [htokens, List.mem_cons, Prod.mk.injEq, reduceCtorEq, true_and, false_and, false_or,
        List.not_mem_nil, or_false] at hspan
      rw [hplaced]
      rcases hspan with rfl | rfl
      · exact .inl (by simp)
      · refine .inr fun o ho => ?_
        obtain rfl : o = 41 := by simpa using ho
        decide
    case attributes =>
      rintro tag span index foreign ⟨front, back, -, -, -, hsplit, -⟩ -
      have hmem : (Token.startTag tag, span) ∈ annotated.tokens .html := by simp [hsplit]
      simp only [htokens, List.mem_cons, Prod.mk.injEq, reduceCtorEq, false_and, or_false,
        List.not_mem_nil] at hmem
      rw [hmem.2, hwritten foreign]
      exact .of_pairwise (by simp; decide) (by decide +kernel)
  exact ⟨hs, t, r, Except.ok_of_toOption ht, hr, hu, hkinds,
    boundInPlace_of_compile (Except.ok_of_toOption ht) hr hs hu⟩

/-- A hole behind a comment that is a marker. -/
def preceded : TemplateStrings := ⟨⟨0⟩, nodeMarker ++ "<p>", ["</p>"]⟩

/-- The hole takes the place of the comment. -/
theorem preceded_not_boundInPlace : preceded.Straight .html ∧ ∃ t r,
    (compile preceded .html true).outcome = .ok t ∧
      (parse .html true (Scan.ofStrings preceded .html).markup).outcome = .ok r ∧
      t.kinds = [.fragment, .text "", .element "p" [], .comment marker] ∧
      ¬ t.BoundInPlace preceded .html r.content.labels := by
  have hs : preceded.Straight .html := ⟨by decide +kernel, by decide +kernel⟩
  have hkinds : (compile preceded .html true).outcome.toOption.map (·.kinds) =
      some [.fragment, .text "", .element "p" [], .comment marker] := by
    decide +kernel
  obtain ⟨t, ht, hkinds⟩ := Option.map_eq_some_iff.1 hkinds
  have hlabels : (parse .html true (Scan.ofStrings preceded .html).markup).outcome.toOption.map
      (·.content.labels) =
        some [.fragment, .comment marker, .element "p" [], .comment marker] := by
    decide +kernel
  obtain ⟨r, hr, hlabels⟩ := Option.map_eq_some_iff.1 hlabels
  have htokens : preceded.tokens .html =
      [(.comment marker, ⟨0, 19⟩), (.startTag ⟨"p", [], false⟩, ⟨19, 22⟩),
        (.comment marker, ⟨22, 41⟩), (.endTag "p", ⟨41, 45⟩)] := by
    cbv
  have hplaced : preceded.placed .html = [(.node, 22)] := by decide +kernel
  refine ⟨hs, t, r, Except.ok_of_toOption ht, Except.ok_of_toOption hr, hkinds, fun hbound => ?_⟩
  have hb : Became (preceded.tokens .html) r.content.labels (.comment marker, ⟨0, 19⟩) 1 :=
    ⟨[], _, [.fragment], _, _, htokens, hlabels, rfl, .comment, .nil⟩
  have hcomment := hbound.comment _ _ _ hb (by simp [hplaced])
  rw [hkinds] at hcomment
  cases hcomment

end Template

end LiveMarkup
