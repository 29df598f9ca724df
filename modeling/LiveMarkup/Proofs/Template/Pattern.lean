import LiveMarkup.Proofs.Template.Sound
import LiveMarkup.Proofs.Tree.Planting

set_option autoImplicit false

/-!
A compiled template as a pattern. The nodes of the prototype are numbered in pre-order; a copy of
the template puts a label in place of every number, and what its parts show goes behind the anchors
and into the attributes.
-/

namespace LiveMarkup

open Branch (labelsOfAll)

namespace Branch

variable {α β : Type}

mutual

/-- The branch with its labels replaced by their places in pre-order, counted from `start`. -/
def numbered (start : Nat) : Branch α → Branch Nat
  | .node _ bs => .node start (numberedAll (start + 1) bs)

def numberedAll (start : Nat) : List (Branch α) → List (Branch Nat)
  | [] => []
  | b :: bs => b.numbered start :: numberedAll (start + b.labels.length) bs

end

mutual

theorem labels_numbered (start : Nat) (b : Branch α) :
    (b.numbered start).labels = List.range' start b.labels.length := by
  match b with
  | .node a bs =>
    rw [numbered, labels_node, labelsOfAll_numberedAll, labels_node, List.length_cons,
      List.range'_succ]

theorem labelsOfAll_numberedAll (start : Nat) (bs : List (Branch α)) :
    labelsOfAll (numberedAll start bs) = List.range' start (labelsOfAll bs).length := by
  match bs with
  | [] => rfl
  | b :: bs =>
    rw [numberedAll, labelsOfAll_cons, labels_numbered, labelsOfAll_numberedAll, labelsOfAll_cons,
      List.length_append, ← List.range'_append_1]

end

mutual

theorem numbered_map (f : α → β) (start : Nat) (b : Branch α) :
    (b.map f).numbered start = b.numbered start := by
  match b with
  | .node a bs => rw [map_node, numbered, numbered, numberedAll_mapAll]

theorem numberedAll_mapAll (f : α → β) (start : Nat) (bs : List (Branch α)) :
    numberedAll start (mapAll f bs) = numberedAll start bs := by
  match bs with
  | [] => rfl
  | b :: bs =>
    rw [mapAll_cons, numberedAll, numberedAll, numbered_map, numberedAll_mapAll, labels_map,
      List.length_map]

end

mutual

theorem map_numbered {f : Nat → β} {g : α → β} {start : Nat} {b : Branch α}
    (h : ∀ i a, b.labels[i]? = some a → f (start + i) = g a) : (b.numbered start).map f = b.map g := by
  match b with
  | .node a bs =>
    have hroot := h 0 a rfl
    rw [numbered, map_node, map_node, mapAll_numberedAll (g := g)]
    · rw [← hroot, Nat.add_zero]
    · intro i x hx
      rw [← h (i + 1) x hx]
      congr 1
      omega

theorem mapAll_numberedAll {f : Nat → β} {g : α → β} {start : Nat} {bs : List (Branch α)}
    (h : ∀ i a, (labelsOfAll bs)[i]? = some a → f (start + i) = g a) :
    mapAll f (numberedAll start bs) = mapAll g bs := by
  match bs with
  | [] => rfl
  | b :: bs =>
    rw [numberedAll, mapAll_cons, mapAll_cons, map_numbered (g := g), mapAll_numberedAll (g := g)]
    · intro i x hx
      rw [← h (b.labels.length + i) x]
      · congr 1
        omega
      · rw [labelsOfAll_cons, List.getElem?_append_right (Nat.le_add_right _ _),
          Nat.add_sub_cancel_left, hx]
    · intro i x hx
      refine h i x ?_
      rw [labelsOfAll_cons, List.getElem?_append_left (List.getElem?_eq_some_iff.1 hx).1, hx]

end

end Branch

/-- What a part shows: the branches in its region, or its attribute unless that is left out. -/
inductive Shown (α : Type) where
  | region (branches : List (Branch α))
  | attribute (a : Option Attribute)

namespace Shown

variable {α β : Type}

def map (f : α → β) : Shown α → Shown β
  | .region branches => .region (Branch.mapAll f branches)
  | .attribute a => .attribute a

/-- The region behind node `i`, if it is the one of the part. -/
def regionOf (i : Nat) : TemplatePart × Shown α → Option (List (Branch α))
  | (c, .region branches) => if c.index = i then some branches else none
  | (_, .attribute _) => none

/-- The attribute of node `i`, if it is the one of the part. -/
def attributeOf (i : Nat) : TemplatePart × Shown α → Option Attribute
  | (c, .attribute a) => if c.index = i then a else none
  | (_, .region _) => none

/-- The attributes that parts show at node `i`. -/
def attributesAt (parts : List TemplatePart) (shown : List (Shown α)) (i : Nat) :
    List Attribute :=
  (parts.zip shown).filterMap (attributeOf i)

/-- The region that a part shows behind node `i`. -/
def regionAt (parts : List TemplatePart) (shown : List (Shown α)) (i : Nat) :
    Option (List (Branch α)) :=
  (parts.zip shown).findSome? (regionOf i)

theorem attributesAt_map (f : α → β) (parts : List TemplatePart) (shown : List (Shown α)) (i : Nat) :
    attributesAt parts (shown.map (map f)) i = attributesAt parts shown i := by
  induction shown generalizing parts with
  | nil => simp [attributesAt]
  | cons s ss ih =>
    cases parts with
    | nil => rfl
    | cons c cs =>
      have htail := ih cs
      have hhead : attributeOf i (c, s.map f) = attributeOf i (c, s) := by cases s <;> rfl
      simp only [attributesAt, List.map_cons, List.zip_cons_cons, List.filterMap_cons,
        hhead] at htail ⊢
      rw [htail]

theorem regionAt_map (f : α → β) (parts : List TemplatePart) (shown : List (Shown α)) (i : Nat) :
    regionAt parts (shown.map (map f)) i = (regionAt parts shown i).map (Branch.mapAll f) := by
  induction shown generalizing parts with
  | nil => simp [regionAt]
  | cons s ss ih =>
    cases parts with
    | nil => rfl
    | cons c cs =>
      have htail := ih cs
      have hhead : regionOf i (c, s.map f) = (regionOf i (c, s)).map (Branch.mapAll f) := by
        match s with
        | .region branches =>
          simp only [map, regionOf]
          split <;> rfl
        | .attribute a => rfl
      simp only [regionAt, List.map_cons, List.zip_cons_cons, List.findSome?_cons,
        hhead] at htail ⊢
      cases regionOf i (c, s) with
      | none => exact htail
      | some g => rfl

theorem attributesAt_append {parts parts' : List TemplatePart} {shown shown' : List (Shown α)}
    (h : parts.length = shown.length) (i : Nat) :
    attributesAt (parts ++ parts') (shown ++ shown') i =
      attributesAt parts shown i ++ attributesAt parts' shown' i := by
  rw [attributesAt, List.zip_append h, List.filterMap_append, attributesAt, attributesAt]

theorem regionAt_append {parts parts' : List TemplatePart} {shown shown' : List (Shown α)}
    (h : parts.length = shown.length) (i : Nat) :
    regionAt (parts ++ parts') (shown ++ shown') i =
      (regionAt parts shown i).or (regionAt parts' shown' i) := by
  rw [regionAt, List.zip_append h, List.findSome?_append, regionAt, regionAt]

theorem regionAt_eq_none {parts : List TemplatePart} {shown : List (Shown α)} {i : Nat}
    (h : ∀ c ∈ parts, c.index ≠ i) : regionAt parts shown i = none := by
  rw [regionAt, List.findSome?_eq_none_iff]
  rintro ⟨c, s⟩ hm
  match s with
  | .region branches => exact if_neg (h c (List.of_mem_zip hm).1)
  | .attribute a => rfl

end Shown

/-- A node with more attributes. -/
def NodeKind.extended (kind : NodeKind) (attributes : List Attribute) : NodeKind :=
  match kind with
  | .element name own => .element name (own ++ attributes)
  | kind => kind

namespace Template

variable {α β : Type}

/-- The prototype's nodes below the root, by their places in pre-order. -/
def pattern (t : Template) : List (Branch Nat) := Branch.numberedAll 1 t.content.branches

/-- What node `i` of the prototype is. -/
def kindAt (t : Template) (i : Nat) : NodeKind := (t.kinds[i]?).getD .fragment

/-- A copy of the template: `label` names its nodes and `closing` the nodes that end a region. -/
def planting (t : Template) (label closing : Nat → α) (shown : List (Shown α)) : Planting α :=
  { label, closing, region := Shown.regionAt t.parts shown }

theorem kinds_eq (t : Template) :
    t.kinds = t.content.label :: labelsOfAll t.content.branches := by
  rw [kinds, Branch.labels_eq]

theorem labels_pattern (t : Template) :
    labelsOfAll t.pattern = List.range' 1 (t.kinds.length - 1) := by
  rw [pattern, Branch.labelsOfAll_numberedAll, kinds_eq, List.length_cons, Nat.add_sub_cancel]

theorem nodup_pattern (t : Template) : (labelsOfAll t.pattern).Nodup := by
  rw [labels_pattern]
  exact List.nodup_range'

theorem mem_pattern {t : Template} {i : Nat} :
    i ∈ labelsOfAll t.pattern ↔ 0 < i ∧ i < t.kinds.length := by
  rw [labels_pattern, List.mem_range'_1]
  omega

theorem map_planting (f : α → β) (t : Template) (label closing : Nat → α) (shown : List (Shown α)) :
    (t.planting label closing shown).map f =
      t.planting (fun i => f (label i)) (fun i => f (closing i)) (shown.map (Shown.map f)) := by
  have hr : (fun i => (Shown.regionAt t.parts shown i).map (Branch.mapAll f)) =
      Shown.regionAt t.parts (shown.map (Shown.map f)) := by
    funext i
    rw [Shown.regionAt_map]
  rw [planting, planting, Planting.map, hr]

namespace Sound

variable {t : Template}

theorem kindAt_zero (h : t.Sound) : t.kindAt 0 = .fragment ∨ t.kindAt 0 = .document := by
  have hz : t.kindAt 0 = t.content.label := by rw [kindAt, kinds_eq]; rfl
  rw [hz]
  exact h.root

theorem local_kindAt (h : t.Sound) {c : TemplatePart} (hc : c ∈ t.parts) :
    Local (t.kindAt c.index) (t.parts.filter (·.index == c.index)) := by
  have hk : t.kinds[c.index]? = some (t.kindAt c.index) := by
    rw [kindAt, List.getElem?_eq_getElem (h.index_lt c hc)]
    rfl
  exact h.fits _ _ hk

/-- A node part is the only part at its node, an empty text. -/
theorem node_part (h : t.Sound) {c : TemplatePart} (hc : c ∈ t.parts) (hk : c.kind = .node) :
    t.kindAt c.index = .text "" ∧ t.parts.filter (·.index == c.index) = [c] := by
  have hm : c ∈ t.parts.filter (·.index == c.index) := List.mem_filter.2 ⟨hc, by simp⟩
  rcases h.local_kindAt hc with ⟨part, hp, -, hkind⟩ | ⟨hall, -⟩
  · rw [hp, List.mem_singleton] at hm
    exact ⟨hkind, hm ▸ hp⟩
  · have hname := (hall c hm).1
    simp [TemplatePart.name?, hk] at hname

/-- An attribute part stands at an element, whose attributes all differ in name. -/
theorem attribute_part (h : t.Sound) {c : TemplatePart} (hc : c ∈ t.parts) {name : String}
    {strings : AttributeStrings} (hk : c.kind = .attribute name strings) :
    ∃ tag attributes, t.kindAt c.index = .element tag attributes ∧
      (attributes.map (·.name) ++
        (t.parts.filter (·.index == c.index)).filterMap TemplatePart.name?).Nodup := by
  have hm : c ∈ t.parts.filter (·.index == c.index) := List.mem_filter.2 ⟨hc, by simp⟩
  rcases h.local_kindAt hc with ⟨part, hp, hpk, -⟩ | ⟨hall, hnames⟩
  · rw [hp, List.mem_singleton] at hm
    subst hm
    rw [hpk] at hk
    cases hk
  · have helement := (hall c hm).2
    generalize t.kindAt c.index = kind at helement hnames ⊢
    cases kind with
    | element tag attributes => exact ⟨tag, attributes, rfl, hnames⟩
    | _ => cases helement

theorem index_mem (h : t.Sound) {c : TemplatePart} (hc : c ∈ t.parts) :
    c.index ∈ labelsOfAll t.pattern := by
  refine mem_pattern.2 ⟨Nat.pos_of_ne_zero fun hz => ?_, h.index_lt c hc⟩
  have hroot := h.kindAt_zero
  match hk : c.kind with
  | .node =>
    have htext := (h.node_part hc hk).1
    rw [hz] at htext
    simp [htext] at hroot
  | .attribute name strings =>
    obtain ⟨tag, attributes, helement, -⟩ := h.attribute_part hc hk
    rw [hz] at helement
    simp [helement] at hroot

/-- No other part stands at the node of a node part. -/
theorem index_ne (h : t.Sound) {front rest : List TemplatePart} {c : TemplatePart}
    (hp : t.parts = front ++ c :: rest) (hk : c.kind = .node) :
    ∀ d ∈ front ++ rest, d.index ≠ c.index := by
  have hc : c ∈ t.parts := by simp [hp]
  have hone := (h.node_part hc hk).2
  have hlen := congrArg List.length hone
  simp only [hp, List.filter_append, List.filter_cons, beq_self_eq_true, if_true,
    List.length_append, List.length_cons, List.length_nil] at hlen
  have hfront : (front.filter (·.index == c.index)).length = 0 := by omega
  have hrest : (rest.filter (·.index == c.index)).length = 0 := by omega
  rw [List.length_eq_zero_iff, List.filter_eq_nil_iff] at hfront hrest
  intro d hd
  rcases List.mem_append.1 hd with hd | hd
  · simpa using hfront d hd
  · simpa using hrest d hd

/-- Another content of one region is another branch behind its anchor. -/
theorem planting_set (h : t.Sound) {front rest : List TemplatePart} {c : TemplatePart}
    (hp : t.parts = front ++ c :: rest) (hk : c.kind = .node) {label closing : Nat → α}
    {before after : List (Shown α)} (hl : front.length = before.length) (f g : List (Branch α)) :
    t.planting label closing (before ++ .region g :: after) =
      (t.planting label closing (before ++ .region f :: after)).set c.index g := by
  have hne := h.index_ne hp hk
  have hat (g : List (Branch α)) (i : Nat) :
      Shown.regionAt t.parts (before ++ .region g :: after) i =
        if i = c.index then some g
        else (Shown.regionAt front before i).or (Shown.regionAt rest after i) := by
    rw [hp, Shown.regionAt_append hl]
    split
    · rename_i hi
      subst hi
      rw [Shown.regionAt_eq_none fun d hd => hne d (List.mem_append_left _ hd)]
      simp [Shown.regionAt, Shown.regionOf]
    · rename_i hi
      simp [Shown.regionAt, Shown.regionOf, Ne.symm hi]
  have hr : Shown.regionAt t.parts (before ++ .region g :: after) = fun j =>
      if j = c.index then some g
      else Shown.regionAt t.parts (before ++ .region f :: after) j := by
    funext j
    rw [hat g j, hat f j]
    split <;> rfl
  rw [planting, hr]
  rfl

end Sound

/-- Where the region behind node `i` of a copy ends. -/
def stopAt (t : Template) (label closing : Nat → α) (i : Nat) : α :=
  match Branch.nextOfAll i t.pattern with
  | some j => label j
  | none => closing i

/-- The region of a part is a place of the copy, between the part's node and where it stops. -/
theorem Sound.exists_place {t : Template} (h : t.Sound) {front rest : List TemplatePart}
    {c : TemplatePart} (hp : t.parts = front ++ c :: rest) (hk : c.kind = .node)
    {before : List (Shown α)} (hl : front.length = before.length) (after : List (Shown α))
    (label closing : Nat → α) :
    ∃ place : Place α,
      (∀ g, (t.planting label closing (before ++ .region g :: after)).forest t.pattern =
        place.fill g) ∧
      place.Between (label c.index) (t.stopAt label closing c.index) := by
  obtain ⟨place, hfill, hbetween⟩ := Planting.exists_place
    (π := t.planting label closing (before ++ .region [] :: after)) t.nodup_pattern
    (h.index_mem (c := c) (by simp [hp]))
  refine ⟨place, fun g => ?_, hbetween⟩
  rw [h.planting_set hp hk hl [] g]
  exact hfill g

end Template

theorem Place.mem_of_after {α : Type} {place : Place α} {right : List α} {y : α}
    (h : place.after [] = y :: right) (f : List (Branch α)) : y ∈ labelsOfAll (place.fill f) := by
  induction place with
  | here before after =>
    rw [Place.after, List.append_nil] at h
    have hy := (Branch.roots_sublist after).mem (a := y) (by simp [h])
    simp [Place.fill, hy]
  | inside before a inner after ih => simp [Place.fill, ih h]

/-- Parts between nodes show regions, others attributes. -/
def Shown.Matches {α : Type} (c : TemplatePart) (s : Shown α) : Prop :=
  match s with
  | .region _ => c.kind = .node
  | .attribute _ => c.kind ≠ .node

/-- The region of a node part. -/
theorem Shown.exists_region {α : Type} {parts : List TemplatePart} {shown : List (Shown α)}
    (h : List.Forall₂ Shown.Matches parts shown) {c : TemplatePart} (hc : c ∈ parts)
    (hk : c.kind = .node) :
    ∃ front rest before g after, parts = front ++ c :: rest ∧
      shown = before ++ .region g :: after ∧ front.length = before.length := by
  induction h with
  | nil => cases hc
  | @cons d s ds ss hm _ ih =>
    rcases List.mem_cons.1 hc with rfl | hc
    · match s with
      | .region g => exact ⟨[], ds, [], g, ss, rfl, rfl, rfl⟩
      | .attribute a => exact absurd hk hm
    · obtain ⟨front, rest, before, g, after, rfl, rfl, hl⟩ := ih hc
      exact ⟨d :: front, rest, s :: before, g, after, rfl, rfl, congrArg (· + 1) hl⟩

/-- The node part of a region. -/
theorem Shown.exists_part {α : Type} {parts : List TemplatePart} {shown : List (Shown α)}
    (h : List.Forall₂ Shown.Matches parts shown) {g : List (Branch α)}
    (hg : Shown.region g ∈ shown) :
    ∃ c front rest before after, parts = front ++ c :: rest ∧ c.kind = .node ∧
      shown = before ++ .region g :: after ∧ front.length = before.length := by
  induction h with
  | nil => cases hg
  | @cons d s ds ss hm _ ih =>
    rcases List.mem_cons.1 hg with rfl | hg
    · exact ⟨d, [], ds, [], ss, rfl, hm, rfl, rfl⟩
    · obtain ⟨c, front, rest, before, after, rfl, hk, rfl, hl⟩ := ih hg
      exact ⟨c, d :: front, rest, s :: before, after, rfl, hk, rfl, congrArg (· + 1) hl⟩

theorem Shown.matches_replace {α : Type} {front rest : List TemplatePart} {c : TemplatePart}
    {before after : List (Shown α)} {s s' : Shown α}
    (h : List.Forall₂ Shown.Matches (front ++ c :: rest) (before ++ s :: after))
    (hl : front.length = before.length) (hs : Shown.Matches c s → Shown.Matches c s') :
    List.Forall₂ Shown.Matches (front ++ c :: rest) (before ++ s' :: after) := by
  induction front generalizing before with
  | nil =>
    obtain rfl := List.length_eq_zero_iff.1 hl.symm
    cases h with
    | cons hm h => exact .cons (hs hm) h
  | cons d ds ih =>
    match before with
    | [] => cases hl
    | s :: ss =>
      cases h with
      | cons hm h => exact .cons hm (ih h (Nat.succ.inj hl))

/-- A region takes no part in the attributes. -/
theorem Shown.attributesAt_region {α : Type} {front rest : List TemplatePart} {c : TemplatePart}
    {before after : List (Shown α)} (hl : front.length = before.length) (f g : List (Branch α))
    (i : Nat) :
    attributesAt (front ++ c :: rest) (before ++ .region f :: after) i =
      attributesAt (front ++ c :: rest) (before ++ .region g :: after) i := by
  rw [attributesAt_append hl, attributesAt_append hl]
  rfl

theorem Shown.regionAt_attribute {α : Type} {front rest : List TemplatePart} {c : TemplatePart}
    {before after : List (Shown α)} (hl : front.length = before.length) (a b : Option Attribute) :
    regionAt (front ++ c :: rest) (before ++ .attribute a :: after) =
      regionAt (front ++ c :: rest) (before ++ .attribute b :: after) := by
  funext i
  rw [regionAt_append hl, regionAt_append hl]
  rfl

/-- The attributes of a node, those of one part set apart. -/
theorem Shown.attributesAt_attribute {α : Type} {front rest : List TemplatePart} {c : TemplatePart}
    {before after : List (Shown α)} (hl : front.length = before.length) (a : Option Attribute)
    (i : Nat) :
    attributesAt (front ++ c :: rest) (before ++ .attribute a :: after) i =
      attributesAt front before i ++ (if c.index = i then a else none).toList ++
        attributesAt rest after i := by
  rw [attributesAt_append hl, List.append_assoc]
  congr 1
  simp only [attributesAt, List.zip_cons_cons, List.filterMap_cons, attributeOf]
  generalize (if c.index = i then a else none) = shown
  cases shown <;> rfl

namespace Template.Sound

variable {α : Type} {t : Template} {label closing : Nat → α} {shown : List (Shown α)}

theorem region_subset (h : t.Sound) (ha : List.Forall₂ Shown.Matches t.parts shown)
    {g : List (Branch α)} (hg : Shown.region g ∈ shown) {n : α} (hn : n ∈ labelsOfAll g) :
    n ∈ labelsOfAll ((t.planting label closing shown).forest t.pattern) := by
  obtain ⟨c, front, rest, before, after, hp, hk, rfl, hl⟩ := Shown.exists_part ha hg
  obtain ⟨place, hfill, -⟩ := h.exists_place hp hk hl after label closing
  rw [hfill]
  exact (place.labels_fill g).mem_iff.2 (List.mem_append_right _ hn)

theorem stopAt_mem (h : t.Sound) (ha : List.Forall₂ Shown.Matches t.parts shown)
    {c : TemplatePart} (hc : c ∈ t.parts) (hk : c.kind = .node) :
    t.stopAt label closing c.index ∈
      labelsOfAll ((t.planting label closing shown).forest t.pattern) := by
  obtain ⟨front, rest, before, g, after, hp, rfl, hl⟩ := Shown.exists_region ha hc hk
  obtain ⟨place, hfill, hbetween⟩ := h.exists_place hp hk hl after label closing
  obtain ⟨right, hr⟩ := hbetween.2 []
  rw [hfill]
  exact Place.mem_of_after hr g

end Template.Sound

end LiveMarkup
