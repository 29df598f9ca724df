import LiveMarkup.Proofs.Markup.Letters
import LiveMarkup.Proofs.Template.Matching
import LiveMarkup.Proofs.Template.Recompiling
import Mathlib.Data.List.Triplewise

set_option autoImplicit false

/-!
The values of a template and the parts that take them. No value is matched to two parts, and all
are values that a render supplies. A part keeps only the first value that it is matched to and how
many there are; that says which ones they are as long as the holes of an attribute's name on one
start tag are not separated by others.
-/

namespace LiveMarkup

open Text (sameName)

/-- The values that a part takes of those a render supplies. -/
def TemplatePart.values (p : TemplatePart) : List Nat := List.range' p.valueIndex (p.size.getD 1)

theorem AttributeStrings.size_ofSegments (segments : List String) :
    (ofSegments segments).size = segments.length - 1 := by
  unfold ofSegments
  split
  · rename_i h
    simp [h, size]
  · rfl

namespace Hole

/-- The attributes that two holes are in have one name, on the same start tag. -/
def sameAttribute : Hole → Hole → Bool
  | .attribute element name, .attribute element' name' => element == element' && sameName name name'
  | _, _ => false

theorem sameAttribute_iff {element : Nat} {name : String} {hole : Hole} :
    (Hole.attribute element name).sameAttribute hole = true ↔
      ∃ n, hole = .attribute element n ∧ sameName name n = true := by
  cases hole with
  | «attribute» e n =>
    rw [sameAttribute, Bool.and_eq_true, beq_iff_eq]
    constructor
    · rintro ⟨rfl, hn⟩
      exact ⟨n, rfl, hn⟩
    · rintro ⟨m, heq, hm⟩
      cases heq
      exact ⟨rfl, hm⟩
  | node | closed => simp [sameAttribute]

/-- Between the holes of a name on a start tag there are no others. -/
def Together (holes : List Hole) : Prop :=
  holes.Triplewise fun a b c => a.sameAttribute c → a.sameAttribute b

/-- A hole that a part can take whose node is behind some number of elements. -/
def Suits (elements : Nat) (part : TemplatePart) : Hole → Prop
  | .node => part.kind = .node
  | .attribute element name => element = elements ∧ ∃ n, part.name? = some n ∧ sameName name n
  | .closed _ => False

end Hole

theorem Scan.length_holes (s : Hole.Scanner) (first : String) (rest : List String) :
    (ofFragments s first rest).holes.length = rest.length := by
  induction rest generalizing s first with
  | nil => rfl
  | cons next rest ih => simp [ofFragments, ih]

/-- Numbers in order that leave out none between them. -/
theorem eq_range'_of_convex {l : List Nat} (hs : l.Pairwise (· < ·))
    (hc : ∀ a ∈ l, ∀ c ∈ l, ∀ b, a < b → b < c → b ∈ l) : ∃ s, l = List.range' s l.length := by
  induction l with
  | nil => exact ⟨0, rfl⟩
  | cons a l ih =>
    obtain ⟨ha, hs⟩ := List.pairwise_cons.1 hs
    obtain ⟨s, hl⟩ := ih hs fun b hb d hd c hbc hcd => by
      have hm := hc b (List.mem_cons_of_mem _ hb) d (List.mem_cons_of_mem _ hd) c hbc hcd
      have := ha b hb
      exact (List.mem_cons.1 hm).resolve_left (by omega)
    refine ⟨a, ?_⟩
    cases l with
    | nil => rfl
    | cons b l =>
      obtain rfl : b = s := by
        rw [List.length_cons, List.range'_succ] at hl
        exact (List.cons.inj hl).1
      -- A number between the first two would be in the list, before its second.
      have hnext : b = a + 1 := by
        have hab := ha b List.mem_cons_self
        by_contra hne
        have hm := hc a List.mem_cons_self b (by simp) (a + 1) (by omega) (by omega)
        rcases List.mem_cons.1 hm with he | hm
        · omega
        · rcases List.mem_cons.1 hm with he | hm
          · omega
          · have := (List.pairwise_cons.1 hs).1 _ hm
            omega
      rw [List.length_cons, List.range'_succ, ← hnext, ← hl]

theorem add_length_le {values : List Nat} {first bound : Nat}
    (h : (first :: values).Pairwise (· < ·)) (hb : ∀ v ∈ first :: values, v < bound) :
    first + (first :: values).length ≤ bound := by
  induction values generalizing first with
  | nil => exact hb first List.mem_cons_self
  | cons second values ih =>
    obtain ⟨hfirst, h⟩ := List.pairwise_cons.1 h
    have := hfirst second List.mem_cons_self
    have := ih h fun v hv => hb v (List.mem_cons_of_mem _ hv)
    simp only [List.length_cons] at *
    omega

namespace AttributeHole

variable {holes : List AttributeHole} {index : Nat}

theorem takeNamed_sublist (name : String) (count : Nat) (holes : List AttributeHole) :
    (takeNamed name count holes).2.Sublist holes := by
  fun_induction takeNamed name count holes with
  | case1 holes => exact List.Sublist.refl holes
  | case2 => exact List.Sublist.refl []
  | case3 count hole holes hname taken ih => exact ih.cons hole
  | case4 count hole holes hname taken ih => exact ih.cons_cons hole

/-- The holes that an attribute leaves to the others. -/
theorem left_sublist (a : Attribute) (holes : List AttributeHole) :
    (if (takeNamed a.name a.markers holes).1.length = a.markers
      then (takeNamed a.name a.markers holes).2 else holes).Sublist holes := by
  split
  · exact takeNamed_sublist a.name a.markers holes
  · exact List.Sublist.refl holes

theorem mem_assign {as : List Attribute} {x : Attribute × List Nat} (hx : x ∈ assign holes as) :
    x.1 ∈ as ∧ x.2.Sublist ((named x.1.name holes).map (·.value)) := by
  induction as generalizing holes with
  | nil => cases hx
  | cons a as ih =>
    rcases List.mem_cons.1 hx with rfl | hx
    · refine ⟨List.mem_cons_self, ?_⟩
      rw [takeNamed_fst]
      exact (List.take_sublist _ _).map _
    · obtain ⟨hm, hsub⟩ := ih hx
      exact ⟨List.mem_cons_of_mem _ hm, hsub.trans (((left_sublist a holes).filter _).map _)⟩

theorem partOf_eq_some {x : Attribute × List Nat} {y : TemplatePart × List Nat}
    (h : partOf index x = some y) : y.2 = x.2 ∧ y.1.index = index ∧ y.1.name? = some x.1.name ∧
      x.2.head? = some y.1.valueIndex ∧ y.1.size = some x.2.length ∧ x.2.length = x.1.markers := by
  obtain ⟨a, values⟩ := x
  cases values with
  | nil => cases h
  | cons first values =>
    by_cases hall : values.length + 1 = a.markers
    · rw [partOf, if_pos hall] at h
      obtain rfl := Option.some.inj h
      refine ⟨rfl, rfl, rfl, rfl, ?_, hall⟩
      simp [TemplatePart.size, AttributeStrings.size_ofSegments, hall, Attribute.markers]
    · rw [partOf, if_neg hall] at h
      cases h

/-- No hole is given to two attributes. -/
theorem assign_subperm (index : Nat) (as : List Attribute) (holes : List AttributeHole) :
    (((assign holes as).filterMap (partOf index)).flatMap Prod.snd).Subperm
      (holes.map (·.value)) := by
  induction as generalizing holes with
  | nil => exact List.nil_subperm
  | cons a as ih =>
    rw [assign, List.filterMap_cons]
    have hrest := ih holes
    split
    · rename_i hpart
      exact (ih _).trans (((left_sublist a holes).map _).subperm)
    · rename_i y hpart
      obtain ⟨hvalues, -, -, -, -, hall⟩ := partOf_eq_some hpart
      rw [List.flatMap_cons, hvalues, if_pos hall]
      exact (((List.Subperm.refl _).append (ih _)).trans
        (takeNamed_perm a.name a.markers holes).subperm)

/-- The holes of every name are consecutive. -/
def Consecutive (holes : List AttributeHole) : Prop :=
  ∀ name, ∃ first count, (named name holes).map (·.value) = List.range' first count

theorem Consecutive.takeNamed (h : Consecutive holes) (name : String) (count : Nat) :
    Consecutive (AttributeHole.takeNamed name count holes).2 := by
  intro other
  by_cases hsame : sameName name other = true
  · have hnamed (holes : List AttributeHole) : named other holes = named name holes := by
      refine List.filter_congr fun hole _ => Bool.eq_iff_iff.2 ⟨fun hn => ?_, fun hn => ?_⟩
      · exact Text.sameName_trans hn (Text.sameName_symm hsame)
      · exact Text.sameName_trans hn hsame
    obtain ⟨first, n, hfirst⟩ := h name
    rw [hnamed, named_takeNamed_self, List.map_drop, hfirst, List.drop_range']
    exact ⟨_, _, rfl⟩
  · rw [named_takeNamed_of_ne fun n hn => Bool.eq_false_iff.2 fun hother =>
      hsame (Text.sameName_trans (Text.sameName_symm hn) hother)]
    exact h other

theorem Consecutive.assign (h : Consecutive holes) {as : List Attribute}
    {x : Attribute × List Nat} (hx : x ∈ AttributeHole.assign holes as) :
    ∃ first count, x.2 = List.range' first count := by
  induction as generalizing holes with
  | nil => cases hx
  | cons a as ih =>
    rcases List.mem_cons.1 hx with rfl | hx
    · obtain ⟨first, n, hfirst⟩ := h a.name
      obtain ⟨k, -, htaken, -⟩ := List.range'_eq_append_iff.1
        (hfirst.symm.trans (List.take_append_drop a.markers _).symm)
      rw [takeNamed_fst, List.map_take]
      exact ⟨first, k, htaken⟩
    · refine ih ?_ hx
      split
      · exact h.takeNamed a.name a.markers
      · exact h

end AttributeHole

namespace Template

variable {holes : List Hole} {front : List NodeKind} {kind : NodeKind}
  {x : TemplatePart × List Nat}

theorem mem_nodeHoles {v : Nat} : v ∈ nodeHoles holes ↔ holes[v]? = some .node := by
  simp [nodeHoles, List.mem_filterMap, List.mk_mem_zipIdx_iff_getElem?]

theorem mem_attributeHoles {element : Nat} {hole : AttributeHole} :
    hole ∈ attributeHoles holes element ↔
      holes[hole.value]? = some (.attribute element hole.name) := by
  simp only [attributeHoles, List.mem_filterMap, Prod.exists, List.mk_mem_zipIdx_iff_getElem?]
  constructor
  · rintro ⟨found, v, hv, hfound⟩
    cases found with
    | «attribute» e name =>
      dsimp only at hfound
      split at hfound
      · rename_i he
        obtain rfl := Option.some.inj hfound
        exact he ▸ hv
      · cases hfound
    | node | closed => cases hfound
  · exact fun h => ⟨_, _, h, by simp⟩

theorem pairwise_zipIdx {α : Type} (l : List α) : l.zipIdx.Pairwise (·.2 < ·.2) := by
  rw [← List.pairwise_map, List.zipIdx_map_snd]
  exact List.pairwise_lt_range'

theorem sorted_nodeHoles (holes : List Hole) : (nodeHoles holes).Pairwise (· < ·) := by
  refine (pairwise_zipIdx holes).filterMap _ fun a b hab v hv w hw => ?_
  have hvalue := Option.some.inj (Option.ite_none_right_eq_some.1 hv).2
  have hvalue' := Option.some.inj (Option.ite_none_right_eq_some.1 hw).2
  rwa [← hvalue, ← hvalue']

theorem sorted_attributeHoles (holes : List Hole) (element : Nat) :
    ((attributeHoles holes element).map (·.value)).Pairwise (· < ·) := by
  rw [List.pairwise_map]
  refine (pairwise_zipIdx holes).filterMap _ fun a b hab v hv w hw => ?_
  obtain ⟨hole, i⟩ := a
  obtain ⟨hole', k⟩ := b
  have hvalue : v.value = i := by
    cases hole with
    | «attribute» => exact (Option.some.inj (Option.ite_none_right_eq_some.1 hv).2) ▸ rfl
    | node | closed => cases hv
  have hvalue' : w.value = k := by
    cases hole' with
    | «attribute» => exact (Option.some.inj (Option.ite_none_right_eq_some.1 hw).2) ▸ rfl
    | node | closed => cases hw
  rwa [hvalue, hvalue']

/-- What a part that is found behind other nodes is matched to. -/
structure Matched (holes : List Hole) (front : List NodeKind) (part : TemplatePart)
    (values : List Nat) : Prop where
  index : part.index = front.length
  first : values.head? = some part.valueIndex
  size : values.length = part.size.getD 1
  sorted : values.Pairwise (· < ·)
  suits : ∀ v ∈ values, ∃ hole, holes[v]? = some hole ∧ hole.Suits (elementsOf front) part

theorem matched_foundAt (hx : x ∈ foundAt holes front kind) : Matched holes front x.1 x.2 := by
  cases kind with
  | element tag attributes =>
    obtain ⟨y, hy, hpart⟩ := List.mem_filterMap.1 hx
    obtain ⟨hvalues, hindex, hname, hfirst, hsize, -⟩ := AttributeHole.partOf_eq_some hpart
    obtain ⟨-, hsub⟩ := AttributeHole.mem_assign hy
    have hall := hsub.trans (List.filter_sublist.map _)
    rw [← hvalues] at hfirst hsize hsub hall
    refine ⟨hindex, hfirst, by rw [hsize]; rfl, (sorted_attributeHoles holes _).sublist hall,
      fun v hv => ?_⟩
    obtain ⟨hole, hhole, rfl⟩ := List.mem_map.1 (hsub.subset hv)
    obtain ⟨hhole, hsame⟩ := List.mem_filter.1 hhole
    exact ⟨_, mem_attributeHoles.1 hhole, rfl, _, hname, hsame⟩
  | comment content =>
    simp only [foundAt] at hx
    split at hx
    · obtain ⟨v, hv, rfl⟩ := List.mem_map.1 hx
      have hnode := mem_nodeHoles.1 (List.mem_of_getElem? (Option.mem_toList.1 hv))
      refine ⟨rfl, rfl, rfl, List.pairwise_singleton _ _, fun w hw => ?_⟩
      obtain rfl := List.mem_singleton.1 hw
      exact ⟨_, hnode, rfl⟩
    · cases hx
  | fragment | document | doctype | text => cases hx

theorem nodup_foundAt (holes : List Hole) (front : List NodeKind) (kind : NodeKind) :
    ((foundAt holes front kind).flatMap Prod.snd).Nodup := by
  cases kind with
  | element tag attributes =>
    have hnodup := (sorted_attributeHoles holes (elementsOf front)).imp Nat.ne_of_lt
    obtain ⟨l, hperm, hsub⟩ := AttributeHole.assign_subperm front.length
      (attributes.filter Attribute.isMarked) (attributeHoles holes (elementsOf front))
    exact hperm.nodup_iff.1 (hsub.nodup hnodup)
  | comment content =>
    simp only [foundAt]
    split
    · cases (nodeHoles holes)[markersOf front]? <;> simp
    · exact List.nodup_nil
  | fragment | document | doctype | text => exact List.nodup_nil

theorem mem_foundFrom {kinds : List NodeKind} : x ∈ foundFrom holes front kinds ↔
    ∃ before kind after, kinds = before ++ kind :: after ∧
      x ∈ foundAt holes (front ++ before) kind := by
  induction kinds generalizing front with
  | nil => simp [foundFrom]
  | cons kind kinds ih =>
    rw [foundFrom, List.mem_append, ih]
    constructor
    · rintro (hx | ⟨before, found, after, rfl, hx⟩)
      · exact ⟨[], kind, kinds, rfl, by simpa using hx⟩
      · refine ⟨kind :: before, found, after, rfl, ?_⟩
        rwa [List.append_assoc, List.singleton_append] at hx
    · rintro ⟨before, found, after, hkinds, hx⟩
      cases before with
      | nil =>
        obtain ⟨rfl, rfl⟩ := List.cons.inj hkinds
        exact .inl (by simpa using hx)
      | cons k before =>
        obtain ⟨rfl, rfl⟩ := List.cons.inj hkinds
        refine .inr ⟨before, found, after, rfl, ?_⟩
        rwa [List.append_assoc, List.singleton_append]

theorem node_of_foundAt (hx : x ∈ foundAt holes front kind) (hk : x.1.kind = .node) :
    kind = .comment marker ∧ ∃ v, (nodeHoles holes)[markersOf front]? = some v ∧ x.2 = [v] := by
  cases kind with
  | element tag attributes =>
    obtain ⟨y, -, hpart⟩ := List.mem_filterMap.1 hx
    obtain ⟨-, -, hname, -⟩ := AttributeHole.partOf_eq_some hpart
    simp [TemplatePart.name?, hk] at hname
  | comment content =>
    simp only [foundAt] at hx
    split at hx
    · rename_i hmarker
      obtain ⟨v, hv, rfl⟩ := List.mem_map.1 hx
      exact ⟨congrArg _ hmarker, v, Option.mem_toList.1 hv, rfl⟩
    · cases hx
  | fragment | document | doctype | text => cases hx

theorem isElement_of_foundAt (hx : x ∈ foundAt holes front kind) {name : String}
    (hname : x.1.name? = some name) : kind.isElement = true := by
  cases kind with
  | element => rfl
  | comment content =>
    simp only [foundAt] at hx
    split at hx
    · obtain ⟨v, -, rfl⟩ := List.mem_map.1 hx
      cases hname
    · cases hx
  | fragment | document | doctype | text => cases hx

/-- What is found at a node is matched to other values than what is found behind it. -/
theorem disjoint_foundAt {before : List NodeKind} {kind' : NodeKind} {y : TemplatePart × List Nat}
    (hx : x ∈ foundAt holes front kind)
    (hy : y ∈ foundAt holes (front ++ kind :: before) kind') : List.Disjoint x.2 y.2 := by
  intro v hv hw
  obtain ⟨hole, hhole, hsuits⟩ := (matched_foundAt hx).suits v hv
  obtain ⟨hole', hhole', hsuits'⟩ := (matched_foundAt hy).suits v hw
  obtain rfl : hole = hole' := Option.some.inj (hhole.symm.trans hhole')
  cases hole with
  | node =>
    -- The markers are counted.
    obtain ⟨hmarker, v', hget, hx2⟩ := node_of_foundAt hx hsuits
    obtain ⟨-, w', hget', hy2⟩ := node_of_foundAt hy hsuits'
    rw [hx2, List.mem_singleton] at hv
    rw [hy2, List.mem_singleton] at hw
    subst hv hw
    have hcount :
        markersOf (front ++ kind :: before) = markersOf front + (markersOf before + 1) := by
      simp [markersOf, List.countP_append, hmarker]
    have hsorted := List.pairwise_iff_getElem.1 (sorted_nodeHoles holes)
    obtain ⟨hlt, hget⟩ := List.getElem?_eq_some_iff.1 hget
    obtain ⟨hlt', hget'⟩ := List.getElem?_eq_some_iff.1 hget'
    have := hsorted _ _ hlt hlt' (by omega)
    omega
  | «attribute» element name =>
    -- The elements are counted.
    obtain ⟨helement, n, hname, -⟩ := hsuits
    obtain ⟨helement', -⟩ := hsuits'
    have hcount : elementsOf (front ++ kind :: before) =
        elementsOf front + (elementsOf before + 1) := by
      simp [elementsOf, List.countP_append, isElement_of_foundAt hx hname]
    omega
  | closed place => exact hsuits

/-- No value is matched to two parts. -/
theorem nodup_foundFrom (holes : List Hole) (front kinds : List NodeKind) :
    ((foundFrom holes front kinds).flatMap Prod.snd).Nodup := by
  induction kinds generalizing front with
  | nil => exact List.nodup_nil
  | cons kind kinds ih =>
    rw [foundFrom, List.flatMap_append, List.nodup_append]
    refine ⟨nodup_foundAt holes front kind, ih _, fun v hv w hw hvw => ?_⟩
    subst hvw
    obtain ⟨x, hx, hv⟩ := List.mem_flatMap.1 hv
    obtain ⟨y, hy, hw⟩ := List.mem_flatMap.1 hw
    obtain ⟨before, kind', after, -, hy⟩ := mem_foundFrom.1 hy
    rw [List.append_assoc, List.singleton_append] at hy
    exact disjoint_foundAt hx hy hv hw

theorem consecutive_attributeHoles (h : Hole.Together holes) (element : Nat) :
    AttributeHole.Consecutive (attributeHoles holes element) := by
  intro name
  have hmem : ∀ v, v ∈ (AttributeHole.named name (attributeHoles holes element)).map (·.value) ↔
      ∃ n, holes[v]? = some (.attribute element n) ∧ sameName n name = true := by
    intro v
    simp only [AttributeHole.named, List.mem_map, List.mem_filter]
    constructor
    · rintro ⟨hole, ⟨hhole, hsame⟩, rfl⟩
      exact ⟨hole.name, mem_attributeHoles.1 hhole, hsame⟩
    · rintro ⟨n, hv, hsame⟩
      exact ⟨⟨n, v⟩, ⟨mem_attributeHoles.2 hv, hsame⟩, rfl⟩
  have hsub : (AttributeHole.named name (attributeHoles holes element)).Sublist
      (attributeHoles holes element) := List.filter_sublist
  have hsorted := (sorted_attributeHoles holes element).sublist (hsub.map _)
  obtain ⟨first, hfirst⟩ := eq_range'_of_convex hsorted fun a ha c hc b hab hbc => by
    obtain ⟨n, ha, hn⟩ := (hmem a).1 ha
    obtain ⟨m, hc, hm⟩ := (hmem c).1 hc
    obtain ⟨hlta, hgeta⟩ := List.getElem?_eq_some_iff.1 ha
    obtain ⟨hltc, hgetc⟩ := List.getElem?_eq_some_iff.1 hc
    have hb := List.triplewise_iff_getElem.1 h a b c hab hbc hltc
    rw [hgeta, hgetc] at hb
    obtain ⟨k, hk, hnk⟩ := Hole.sameAttribute_iff.1 <| hb <| Hole.sameAttribute_iff.2
      ⟨m, rfl, Text.sameName_trans hn (Text.sameName_symm hm)⟩
    exact (hmem b).2 ⟨k, List.getElem?_eq_some_iff.2 ⟨_, hk⟩,
      Text.sameName_trans (Text.sameName_symm hnk) hn⟩
  exact ⟨first, _, hfirst⟩

/-- A part takes the values that it is matched to if none between them is left out. -/
theorem Matched.values_eq {part : TemplatePart} {values : List Nat}
    (h : Matched holes front part values) {first : Nat}
    (hrange : values = List.range' first values.length) : part.values = values := by
  have hfirst := h.first
  rw [TemplatePart.values, ← h.size]
  cases values with
  | nil => rfl
  | cons v values =>
    rw [List.head?_cons, Option.some.injEq] at hfirst
    rw [List.length_cons, List.range'_succ, List.cons.injEq] at hrange
    rw [List.length_cons, List.range'_succ, ← hfirst, hrange.1, ← hrange.2]

theorem values_of_foundAt (h : Hole.Together holes) (hx : x ∈ foundAt holes front kind) :
    x.1.values = x.2 := by
  obtain ⟨first, count, hrange⟩ : ∃ first count, x.2 = List.range' first count := by
    cases kind with
    | element tag attributes =>
      obtain ⟨y, hy, hpart⟩ := List.mem_filterMap.1 hx
      rw [(AttributeHole.partOf_eq_some hpart).1]
      exact (consecutive_attributeHoles h _).assign hy
    | comment content =>
      simp only [foundAt] at hx
      split at hx
      · obtain ⟨v, -, rfl⟩ := List.mem_map.1 hx
        exact ⟨v, 1, rfl⟩
      · cases hx
    | fragment | document | doctype | text => cases hx
  refine @Matched.values_eq _ _ _ _ (matched_foundAt hx) first ?_
  rw [hrange, List.length_range']

theorem values_of_foundFrom (h : Hole.Together holes) {kinds : List NodeKind}
    (hx : x ∈ foundFrom holes [] kinds) : x.1.values = x.2 := by
  obtain ⟨before, kind, after, -, hx⟩ := mem_foundFrom.1 hx
  exact values_of_foundAt h hx

/-- The values that a part takes are among those that a render supplies. -/
theorem add_size_le {strings : TemplateStrings} {kind : TemplateKind} {detectDocuments : Bool}
    {t : Template} (h : (compile strings kind detectDocuments).outcome = .ok t) {p : TemplatePart}
    (hp : p ∈ t.parts) : p.valueIndex + p.size.getD 1 ≤ t.valueCount := by
  obtain ⟨r, -, hparts, -⟩ := compile_matched h
  rw [hparts] at hp
  obtain ⟨x, hx, rfl⟩ := List.mem_map.1 hp
  obtain ⟨front, found, after, -, hx⟩ := mem_foundFrom.1 hx
  have hm := matched_foundAt hx
  obtain ⟨values, hvalues⟩ := List.head?_eq_some_iff.1 hm.first
  have hcount : t.valueCount = (Scan.ofStrings strings kind).holes.length :=
    (shape_of_compile h).2.trans (Scan.length_holes _ strings.first strings.rest).symm
  rw [hcount, ← hm.size, hvalues]
  refine add_length_le (hvalues ▸ hm.sorted) fun v hv => ?_
  obtain ⟨hole, hhole, -⟩ := hm.suits v (hvalues ▸ hv)
  exact (List.getElem?_eq_some_iff.1 hhole).1

/-- The hole of a value takes none, or no part is matched to it. -/
def Ignored (strings : TemplateStrings) (kind : TemplateKind) (detectDocuments : Bool) (i : Nat) :
    Prop :=
  let scan := Scan.ofStrings strings kind
  (∃ place, scan.holes[i]? = some (.closed place)) ∨
    ∀ r, (parse kind detectDocuments scan.markup).outcome = .ok r →
      ∀ x ∈ foundFrom scan.holes [] r.content.labels, i ∉ x.2

/-- No part takes a value that is ignored, if no hole separates those of an attribute. -/
theorem not_mem_values_of_ignored {strings : TemplateStrings} {kind : TemplateKind}
    {detectDocuments : Bool} {t : Template}
    (h : (compile strings kind detectDocuments).outcome = .ok t)
    (ht : Hole.Together (Scan.ofStrings strings kind).holes) {i : Nat}
    (hi : Ignored strings kind detectDocuments i) {p : TemplatePart} (hp : p ∈ t.parts) :
    i ∉ p.values := by
  obtain ⟨r, hparse, hparts, -⟩ := compile_matched h
  rw [hparts] at hp
  obtain ⟨x, hx, rfl⟩ := List.mem_map.1 hp
  rw [values_of_foundFrom ht hx]
  rcases hi with ⟨place, hclosed⟩ | hunmatched
  · intro hi
    obtain ⟨front, found, after, -, hx⟩ := mem_foundFrom.1 hx
    obtain ⟨hole, hhole, hsuits⟩ := (matched_foundAt hx).suits i hi
    obtain rfl := Option.some.inj (hclosed.symm.trans hhole)
    exact hsuits
  · exact hunmatched r hparse x hx

/-- Every value goes to one part at most. The values that a part takes are among those that a render
supplies, and those that it is matched to are given to no other part. They are the ones that it
takes if no hole separates those of an attribute's name on a start tag, and then no two parts take
a value in common. -/
theorem compile_values {strings : TemplateStrings} {kind : TemplateKind} {detectDocuments : Bool}
    {t : Template} (h : (compile strings kind detectDocuments).outcome = .ok t) :
    let scan := Scan.ofStrings strings kind
    ∃ r, (parse kind detectDocuments scan.markup).outcome = .ok r ∧
      let found := foundFrom scan.holes [] r.content.labels
      t.parts = found.map Prod.fst ∧ (found.flatMap Prod.snd).Nodup ∧
      (∀ x ∈ found, x.2.head? = some x.1.valueIndex ∧ x.2.length = x.1.size.getD 1 ∧
        ∀ v ∈ x.2, ∃ hole, scan.holes[v]? = some hole ∧
          hole.Suits (elementsOf (r.content.labels.take x.1.index)) x.1) ∧
      (∀ p ∈ t.parts, p.valueIndex + p.size.getD 1 ≤ t.valueCount) ∧
      (Hole.Together scan.holes → (∀ x ∈ found, x.1.values = x.2) ∧
        t.parts.Pairwise fun p q => List.Disjoint p.values q.values) := by
  intro scan
  obtain ⟨r, hparse, hparts, -⟩ := compile_matched h
  have hmatched : ∀ x ∈ foundFrom scan.holes [] r.content.labels, ∃ front kind after,
      r.content.labels = front ++ kind :: after ∧ Matched scan.holes front x.1 x.2 ∧
      x ∈ foundAt scan.holes front kind := by
    intro x hx
    obtain ⟨front, found, after, hlabels, hx⟩ := mem_foundFrom.1 hx
    exact ⟨front, found, after, hlabels, matched_foundAt hx, hx⟩
  have hnodup := nodup_foundFrom scan.holes [] r.content.labels
  refine ⟨r, hparse, hparts, hnodup, fun x hx => ?_, fun p hp => ?_, fun ht => ?_⟩
  · obtain ⟨front, found, after, hlabels, hm, -⟩ := hmatched x hx
    refine ⟨hm.first, hm.size, ?_⟩
    rw [hlabels, hm.index, List.take_left]
    exact hm.suits
  · exact add_size_le h hp
  · have hvalues : ∀ x ∈ foundFrom scan.holes [] r.content.labels, x.1.values = x.2 :=
      fun x hx => values_of_foundFrom ht hx
    refine ⟨hvalues, ?_⟩
    rw [hparts, List.pairwise_map]
    refine List.Pairwise.imp_of_mem (fun {x y} hx hy hdisjoint => ?_)
      (List.nodup_flatMap.1 hnodup).2
    rw [hvalues x hx, hvalues y hy]
    exact hdisjoint

/-- A link whose title has two holes, with its text. -/
def titledLink : TemplateStrings := ⟨⟨0⟩, "<a title=\"", [" of ", "\" href=", ">", "</a>"]⟩

theorem titledLink_values : ∃ t, (compile titledLink .html true).outcome = .ok t ∧
    t.parts.map (·.valueIndex) = [0, 2, 3] ∧ Hole.Together (Scan.ofStrings titledLink .html).holes ∧
    (∀ p ∈ t.parts, p.valueIndex + p.size.getD 1 ≤ 4) ∧
    t.parts.Pairwise fun p q => List.Disjoint p.values q.values := by
  have hread : (compile titledLink .html true).outcome.toOption.map
      (fun t => (t.parts.map (·.valueIndex), t.valueCount)) = some ([0, 2, 3], 4) := by
    decide +kernel
  obtain ⟨t, ht, hparts⟩ := Option.map_eq_some_iff.1 hread
  rw [Prod.mk.injEq] at hparts
  have hok := Except.ok_of_toOption ht
  have htogether : Hole.Together (Scan.ofStrings titledLink .html).holes := by
    have hholes : (Scan.ofStrings titledLink .html).holes =
        [.attribute 0 "title", .attribute 0 "title", .attribute 0 "href", .node] := by
      decide +kernel
    rw [hholes]
    have hname : sameName "title" "href" = false := by decide
    simp [Hole.Together, List.triplewise_cons, Hole.sameAttribute, hname]
  obtain ⟨r, -, -, -, -, hle, hdisjoint⟩ := compile_values hok
  exact ⟨t, hok, hparts.1, htogether, hparts.2 ▸ hle, (hdisjoint htogether).2⟩

/-- A title written twice, with the value of another attribute between its holes. -/
def separated : TemplateStrings :=
  ⟨⟨0⟩, "<a title=\"", [" " ++ marker ++ "\" href=", " title=", "></a>"]⟩

/-- The first title has two markers, and is matched to the holes of both. -/
theorem separated_overlap : ∃ t, (compile separated .html true).outcome = .ok t ∧
    t.parts.map (·.values) = [[0, 1], [1]] ∧
    ¬ t.parts.Pairwise fun p q => List.Disjoint p.values q.values := by
  have hvalues : (compile separated .html true).outcome.toOption.map
      (fun t => t.parts.map (·.values)) = some [[0, 1], [1]] := by
    decide +kernel
  obtain ⟨t, ht, hvalues⟩ := Option.map_eq_some_iff.1 hvalues
  refine ⟨t, Except.ok_of_toOption ht, hvalues, fun hdisjoint => ?_⟩
  rw [← List.pairwise_map, hvalues] at hdisjoint
  have hone : List.Disjoint [0, 1] [1] := (List.pairwise_cons.1 hdisjoint).1 [1] (by simp)
  exact hone (List.mem_cons_of_mem 0 (List.mem_singleton_self 1)) (List.mem_singleton_self 1)

end Template

end LiveMarkup
