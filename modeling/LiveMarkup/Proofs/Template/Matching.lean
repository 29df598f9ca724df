import LiveMarkup.Proofs.Template.Sound
import Mathlib.Data.List.Perm.Subperm

set_option autoImplicit false

/-!
Which holes are matched to which part. Node by node in pre-order, a comment that is a marker gets
the next hole between nodes, and an attribute that holds markers gets the first holes of its name
that its element has left. So what is found at a node depends on the nodes in front of it only
through how many elements and how many marker comments they are.
-/

namespace LiveMarkup

open Branch (labelsOfAll mapAll)
open Text (sameName)

namespace Attribute

/-- The literal segments of a value, between its markers. -/
def segments (a : Attribute) : List String :=
  (Text.splitOn marker.toList a.value.toList).map String.ofList

def markers (a : Attribute) : Nat := a.segments.length - 1

def isMarked (a : Attribute) : Bool := (Text.breakOn marker.toList a.value.toList).isSome

end Attribute

namespace AttributeHole

/-- The holes of a name. -/
def named (name : String) (holes : List AttributeHole) : List AttributeHole :=
  holes.filter fun h => sameName h.name name

/-- The values that marked attributes get, one attribute after the other. An attribute that does not
get as many as it has markers leaves the holes to the others. -/
def assign (holes : List AttributeHole) : List Attribute → List (Attribute × List Nat)
  | [] => []
  | a :: as =>
    let taken := takeNamed a.name a.markers holes
    (a, taken.1) :: assign (if taken.1.length = a.markers then taken.2 else holes) as

/-- The part of an attribute that got all its values. -/
def partOf (index : Nat) : Attribute × List Nat → Option (TemplatePart × List Nat)
  | (_, []) => none
  | (a, first :: values) =>
    if values.length + 1 = a.markers then
      some (⟨.attribute a.name (.ofSegments a.segments), index, first⟩, first :: values)
    else none

/-- The attributes of an element that are not taken away: those that got no value. -/
def spared (holes : List AttributeHole) (attributes : List Attribute) : List Attribute :=
  attributes.filter fun a =>
    (assign holes (attributes.filter Attribute.isMarked)).all fun x =>
      x.1.name != a.name || x.2.isEmpty

variable {name other : String} {count : Nat} {holes : List AttributeHole}

theorem named_cons (name : String) (hole : AttributeHole) (holes : List AttributeHole) :
    named name (hole :: holes) =
      if sameName hole.name name then hole :: named name holes else named name holes :=
  List.filter_cons

theorem takeNamed_zero (name : String) (holes : List AttributeHole) :
    takeNamed name 0 holes = ([], holes) := by
  cases holes <;> rfl

theorem takeNamed_fst (name : String) (count : Nat) (holes : List AttributeHole) :
    (takeNamed name count holes).1 = ((named name holes).take count).map (·.value) := by
  fun_induction takeNamed name count holes with
  | case1 holes => simp
  | case2 => simp [named]
  | case3 count hole holes hname taken ih => simp [taken, ih, named, hname]
  | case4 count hole holes hname taken ih => simp [taken, ih, named, hname]

theorem named_takeNamed_self (name : String) (count : Nat) (holes : List AttributeHole) :
    named name (takeNamed name count holes).2 = (named name holes).drop count := by
  fun_induction takeNamed name count holes with
  | case1 holes => simp
  | case2 => simp [named]
  | case3 count hole holes hname taken ih =>
    rw [named_cons, if_pos hname, List.drop_succ_cons]
    exact ih
  | case4 count hole holes hname taken ih =>
    rw [named_cons, named_cons, if_neg hname, if_neg hname]
    exact ih

theorem named_takeNamed_of_ne (h : ∀ n, sameName n name = true → sameName n other = false)
    (count : Nat) (holes : List AttributeHole) :
    named other (takeNamed name count holes).2 = named other holes := by
  fun_induction takeNamed name count holes with
  | case1 holes => rfl
  | case2 => rfl
  | case3 count hole holes hname taken ih =>
    rw [named_cons, if_neg (by simp [h _ hname])]
    exact ih
  | case4 count hole holes hname taken ih =>
    rw [named_cons, named_cons, ih]

theorem takeNamed_perm (name : String) (count : Nat) (holes : List AttributeHole) :
    ((takeNamed name count holes).1 ++ (takeNamed name count holes).2.map (·.value)).Perm
      (holes.map (·.value)) := by
  fun_induction takeNamed name count holes with
  | case1 holes => rfl
  | case2 => rfl
  | case3 count hole holes hname taken ih => exact ih.cons hole.value
  | case4 count hole holes hname taken ih =>
    rw [List.map_cons, List.map_cons]
    exact List.perm_middle.trans (ih.cons hole.value)

end AttributeHole

namespace Template

open AttributeHole (assign partOf spared)
open LiveMarkup.Tree (SameLinks)

section

variable (holes : List Hole)

/-- The holes between nodes. -/
def nodeHoles : List Nat :=
  holes.zipIdx.filterMap fun (hole, value) => if hole = .node then some value else none

/-- The holes in the attributes of one element. -/
def attributeHoles (element : Nat) : List AttributeHole :=
  holes.zipIdx.filterMap fun (hole, value) =>
    match hole with
    | .attribute e name => if e = element then some ⟨name, value⟩ else none
    | _ => none

/-- How many of some nodes are elements. -/
def elementsOf (kinds : List NodeKind) : Nat := kinds.countP NodeKind.isElement

/-- How many of some nodes are marker comments. -/
def markersOf (kinds : List NodeKind) : Nat := kinds.countP (· = .comment marker)

/-- The parts that are found at a node behind others, each with the values that it is matched to. -/
def foundAt (front : List NodeKind) : NodeKind → List (TemplatePart × List Nat)
  | .element _ attributes =>
    (assign (attributeHoles holes (elementsOf front))
      (attributes.filter Attribute.isMarked)).filterMap (partOf front.length)
  | .comment content =>
    if content = marker then
      (nodeHoles holes)[markersOf front]?.toList.map fun k => (⟨.node, front.length, k⟩, [k])
    else []
  | _ => []

/-- What is left of a node behind others. -/
def leftAt (front : List NodeKind) : NodeKind → NodeKind
  | .element tag attributes =>
    .element tag (spared (attributeHoles holes (elementsOf front)) attributes)
  | .comment content =>
    if content = marker ∧ markersOf front < (nodeHoles holes).length then .text ""
    else .comment content
  | kind => kind

def foundFrom (front : List NodeKind) : List NodeKind → List (TemplatePart × List Nat)
  | [] => []
  | kind :: kinds => foundAt holes front kind ++ foundFrom (front ++ [kind]) kinds

def leftFrom (front : List NodeKind) : List NodeKind → List NodeKind
  | [] => []
  | kind :: kinds => leftAt holes front kind :: leftFrom (front ++ [kind]) kinds

end

theorem getElem?_leftFrom (holes : List Hole) (front before : List NodeKind) (kind : NodeKind)
    (after : List NodeKind) :
    (leftFrom holes front (before ++ kind :: after))[before.length]? =
      some (leftAt holes (front ++ before) kind) := by
  induction before generalizing front with
  | nil => simp [leftFrom]
  | cons k before ih =>
    rw [List.cons_append, leftFrom, List.length_cons, List.getElem?_cons_succ, ih]
    simp

variable {b : Binding} {node : NodeId} {index : Nat} {holes : List Hole}

/-- One marked attribute gets what it is matched to. -/
theorem bindAttribute_matched (b : Binding) (node : NodeId) (index : Nat)
    (holes : List AttributeHole) (a : Attribute) :
    let taken := AttributeHole.takeNamed a.name a.markers holes
    let done := b.bindAttribute node index holes a
    done.1.parts = b.parts ++ (partOf index (a, taken.1)).toList.map Prod.fst ∧
      done.1.elements = b.elements ∧ done.1.nodeHoles = b.nodeHoles ∧
      done.1.tree = (if taken.1.isEmpty then b.tree else (b.tree.removeAttribute node a.name).1) ∧
      done.2 = if taken.1.length = a.markers then taken.2 else holes := by
  have hzero : a.markers = 0 → AttributeHole.takeNamed a.name a.markers holes = ([], holes) :=
    fun h => h ▸ AttributeHole.takeNamed_zero a.name holes
  simp only [Binding.bindAttribute, ← Attribute.segments.eq_1, ← Attribute.markers.eq_1]
  obtain ⟨⟨taken, left⟩, htaken⟩ :
      ∃ taken, taken = AttributeHole.takeNamed a.name a.markers holes := ⟨_, rfl⟩
  rw [← htaken] at hzero ⊢
  cases taken with
  | nil =>
    refine ⟨by simp [partOf, Binding.report], rfl, rfl, by simp [Binding.report], ?_⟩
    change holes = if 0 = a.markers then left else holes
    split
    · rename_i hlength
      exact (Prod.mk.inj (hzero hlength.symm)).2.symm
    · rfl
  | cons first values =>
    by_cases hall : values.length + 1 = a.markers
    · simp [hall, partOf]
    · simp [hall, partOf, Binding.report]

variable (index) in
/-- The marked attributes of an element get what they are matched to, one after the other. -/
theorem foldl_bindAttribute_matched {tag : String} {attributes : List Attribute}
    (h : b.tree.Accounted) (hl : b.tree.contains node = true)
    (hk : b.tree.kind node = .element tag attributes) (hd : (attributes.map (·.name)).Nodup)
    (marked : List Attribute) (holes : List AttributeHole) :
    let done := (marked.foldl (fun (b, holes) a => b.bindAttribute node index holes a)
      (b, holes)).1
    done.parts = b.parts ++ ((assign holes marked).filterMap (partOf index)).map Prod.fst ∧
      done.elements = b.elements ∧ done.nodeHoles = b.nodeHoles ∧
      done.tree.kind node = .element tag (attributes.filter fun a =>
        (assign holes marked).all fun x => x.1.name != a.name || x.2.isEmpty) := by
  induction marked generalizing b attributes holes with
  | nil => exact ⟨by simp [assign], rfl, rfl, by simp [assign, hk]⟩
  | cons a as ih =>
    obtain ⟨hparts, helements, hnodes, htree, hleft⟩ := bindAttribute_matched b node index holes a
    obtain ⟨taken, htaken⟩ : ∃ taken, taken = AttributeHole.takeNamed a.name a.markers holes :=
      ⟨_, rfl⟩
    rw [← htaken] at hparts htree hleft
    obtain ⟨next, rest, hnext⟩ :
        ∃ next rest, b.bindAttribute node index holes a = (next, rest) := ⟨_, _, rfl⟩
    rw [hnext] at hparts helements hnodes htree hleft
    change rest = _ at hleft
    -- What one attribute leaves of the element.
    have hkept : next.tree.Accounted ∧ next.tree.contains node = true ∧
        next.tree.kind node = .element tag
          (attributes.filter fun c => a.name != c.name || taken.1.isEmpty) := by
      cases hnone : taken.1.isEmpty with
      | true =>
        rw [hnone, if_pos rfl] at htree
        refine ⟨htree ▸ h, htree ▸ hl, ?_⟩
        rw [htree, hk, List.filter_eq_self.2 (by simp)]
      | false =>
        rw [hnone, if_neg (by simp)] at htree
        have he := edits_removeAttribute h hl hk hd a.name
        refine ⟨htree ▸ he.accounted, ?_, ?_⟩
        · rw [htree, (he.sameLinks node).1]
          exact hl
        · rw [htree, he.kind_self]
          simp [bne, Bool.beq_comm]
    have hassign : assign holes (a :: as) = (a, taken.1) :: assign rest as := by
      rw [assign, ← htaken, hleft]
    obtain ⟨hparts', helements', hnodes', hkind'⟩ := ih hkept.1 hkept.2.1 hkept.2.2
      (hd.sublist (List.filter_sublist.map _)) rest
    simp only [List.foldl_cons, hnext, hassign]
    refine ⟨?_, helements'.trans helements, hnodes'.trans hnodes, ?_⟩
    · rw [hparts', hparts, List.append_assoc, ← List.map_append]
      cases hpart : partOf index (a, taken.1) <;> simp [hpart]
    · rw [hkind', List.filter_filter]
      simp [Bool.and_comm]

/-- A visit finds what the node is matched to, and leaves the rest of it. -/
theorem visit_matched (h : b.tree.Accounted) (hl : b.tree.contains node = true)
    (hd : (b.tree.kind node).Distinct) {front : List NodeKind}
    (helements : b.elements = elementsOf front)
    (hnodes : b.nodeHoles = (nodeHoles holes).drop (markersOf front)) :
    let kind := b.tree.kind node
    let done := b.visit holes node front.length
    done.parts = b.parts ++ (foundAt holes front kind).map Prod.fst ∧
      done.elements = elementsOf (front ++ [kind]) ∧
      done.nodeHoles = (nodeHoles holes).drop (markersOf (front ++ [kind])) ∧
      done.tree.kind node = leftAt holes front kind := by
  have helements' (kind : NodeKind) :
      elementsOf (front ++ [kind]) = b.elements + if kind.isElement then 1 else 0 := by
    rw [helements, elementsOf, elementsOf, List.countP_append, List.countP_singleton]
  have hmarkers (kind : NodeKind) : markersOf (front ++ [kind]) =
      markersOf front + if kind = .comment marker then 1 else 0 := by
    rw [markersOf, markersOf, List.countP_append, List.countP_singleton]
    simp
  simp only [Binding.visit]
  cases hk : b.tree.kind node with
  | element tag attributes =>
    have hattributes : b.tree.attributes node = attributes := by
      simp [Tree.attributes, hk, NodeKind.attributes]
    have hnames : (attributes.map (·.name)).Nodup := by
      simpa [NodeKind.Distinct, hk, NodeKind.attributes] using hd
    obtain ⟨hparts, hcount, hrest, hkind⟩ := foldl_bindAttribute_matched front.length
      (b := { b with elements := b.elements + 1 }) h hl hk hnames
      (attributes.filter Attribute.isMarked) (attributeHoles holes (elementsOf front))
    obtain ⟨htree, hreported, hsame, hleft⟩ := foldl_report
      (fun h : AttributeHole => .unboundAttributeValue h.value h.name)
      (((attributes.filter Attribute.isMarked).foldl
        (fun (b, holes) a => b.bindAttribute node front.length holes a)
        ({ b with elements := b.elements + 1 }, attributeHoles holes (elementsOf front))).2)
      (((attributes.filter Attribute.isMarked).foldl
        (fun (b, holes) a => b.bindAttribute node front.length holes a)
        ({ b with elements := b.elements + 1 }, attributeHoles holes (elementsOf front))).1)
    simp only [Binding.bindAttributes, hattributes]
    rw [helements', hmarkers, helements]
    rw [helements] at htree hreported hsame hleft hparts hcount hrest hkind
    refine ⟨hreported.trans hparts, hsame.trans hcount, ?_, ?_⟩
    · rw [if_neg (by simp)]
      exact hleft.trans (hrest.trans hnodes)
    · exact (congrArg (Tree.kind · node) htree).trans hkind
  | comment content =>
    simp only [foundAt, leftAt, helements', hmarkers, NodeKind.isElement, hnodes]
    by_cases hmarker : content = marker
    · subst hmarker
      by_cases hlt : markersOf front < (nodeHoles holes).length
      · have he := h.edits_setKind hl (.text "")
        simp only [List.drop_eq_getElem_cons hlt, List.getElem?_eq_getElem hlt, if_true, hlt,
          and_self, he.kind_self]
        exact ⟨rfl, rfl, trivial⟩
      · have hle := Nat.le_of_not_lt hlt
        have hnext : (nodeHoles holes).length ≤ markersOf front + 1 := Nat.le_succ_of_le hle
        simp [List.drop_eq_nil_of_le hle, List.drop_eq_nil_of_le hnext, hlt, hk, hnodes]
    · cases (nodeHoles holes).drop (markersOf front) <;> simp [hmarker, hk, hnodes]
  | fragment | document | doctype | text =>
    simp [foundAt, leftAt, hk, helements', hmarkers, hnodes, NodeKind.isElement]

/-- After the nodes of a list, every node is matched to what it finds behind those in front. -/
theorem foldl_visit_matched {order : List NodeId} (front : List NodeKind)
    (h : b.tree.Accounted)
    (hl : ∀ n ∈ order, b.tree.contains n = true ∧ (b.tree.kind n).Distinct) (hn : order.Nodup)
    (helements : b.elements = elementsOf front)
    (hnodes : b.nodeHoles = (nodeHoles holes).drop (markersOf front)) :
    let done := (order.zipIdx front.length).foldl
      (fun b (node, index) => b.visit holes node index) b
    done.parts = b.parts ++ (foundFrom holes front (order.map b.tree.kind)).map Prod.fst ∧
      order.map done.tree.kind = leftFrom holes front (order.map b.tree.kind) ∧
      ∀ n, n ∉ order → done.tree.kind n = b.tree.kind n := by
  induction order generalizing b front with
  | nil => simp [foundFrom, leftFrom]
  | cons n ns ih =>
    obtain ⟨hnew, hns⟩ := List.nodup_cons.1 hn
    obtain ⟨hln, hdn⟩ := hl n List.mem_cons_self
    obtain ⟨_, hv, -⟩ := visits_visit front.length h hln hdn holes
    obtain ⟨hparts, hcount, hrest, hkind⟩ := visit_matched h hln hdn helements hnodes
    have hother : ∀ m ∈ ns, (b.visit holes n front.length).tree.kind m = b.tree.kind m :=
      fun m hm => hv.kind_other m fun he => hnew (he ▸ hm)
    have hmap : ns.map (b.visit holes n front.length).tree.kind = ns.map b.tree.kind :=
      List.map_congr_left hother
    obtain ⟨hparts', hkinds', hother'⟩ := ih (front ++ [b.tree.kind n]) hv.accounted
      (fun m hm => by
        obtain ⟨hlm, hdm⟩ := hl m (List.mem_cons_of_mem _ hm)
        exact ⟨((hv.sameLinks m).1).trans hlm, hother m hm ▸ hdm⟩) hns hcount hrest
    rw [List.length_append, List.length_singleton, hmap] at hparts' hkinds'
    rw [List.length_append, List.length_singleton] at hother'
    rw [List.zipIdx_cons, List.foldl_cons, List.map_cons, foundFrom, leftFrom]
    refine ⟨?_, ?_, fun m hm => ?_⟩
    · rw [hparts', hparts, List.map_append, List.append_assoc]
    · rw [List.map_cons, hother' n hnew, hkind, hkinds']
    · obtain ⟨hne, hm⟩ := not_or.1 (List.mem_cons.not.1 hm)
      rw [hother' m hm, hv.kind_other m hne]

theorem bind_matched {r : Markup.Rooted} {bs : List (Branch NodeId)} (hr : r.Regular bs)
    (hroot : r.tree.kind r.root = .fragment ∨ r.tree.kind r.root = .document)
    (hparsed : ∀ b ∈ mapAll r.tree.kind bs, b.Parsed) (holes : List Hole) :
    let kinds := (r.root :: labelsOfAll bs).map r.tree.kind
    (bind r holes).parts = (foundFrom holes [] kinds).map Prod.fst ∧
      (r.root :: labelsOfAll bs).map (bind r holes).tree.kind = leftFrom holes [] kinds := by
  have horder := hr.preorder
  have hnodes : ∀ n ∈ r.root :: labelsOfAll bs,
      r.tree.contains n = true ∧ (r.tree.kind n).Distinct := by
    intro n hn
    rcases List.mem_cons.1 hn with rfl | hn
    · refine ⟨hr.stretch.live, ?_⟩
      rcases hroot with hk | hk <;> simp [NodeKind.Distinct, hk, NodeKind.attributes]
    · refine ⟨hr.stretch.holds.contains hn, ?_⟩
      have hk : r.tree.kind n ∈ labelsOfAll (mapAll r.tree.kind bs) := by
        rw [Branch.labelsOfAll_mapAll]
        exact List.mem_map_of_mem hn
      obtain ⟨b, hb, hk⟩ := Branch.mem_labelsOfAll.1 hk
      exact (hparsed b hb).distinct _ hk
  obtain ⟨hparts, hkinds, -⟩ := foldl_visit_matched []
    (b := { tree := r.tree, nodeHoles := nodeHoles holes, events := misplaced holes })
    hr.accounted hnodes hr.nodup rfl rfl
  simp only [bind, horder]
  exact ⟨hparts, hkinds⟩

/-- A compiled template is the parsed markup with what was matched taken out of it. -/
theorem compile_matched {strings : TemplateStrings} {kind : TemplateKind}
    {detectDocuments : Bool} {t : Template}
    (h : (compile strings kind detectDocuments).outcome = .ok t) :
    let scan := Scan.ofStrings strings kind
    ∃ r, (parse kind detectDocuments scan.markup).outcome = .ok r ∧
      t.parts = (foundFrom scan.holes [] r.content.labels).map Prod.fst ∧
      t.kinds = leftFrom scan.holes [] r.content.labels := by
  simp only [compile] at h
  split at h
  · cases h
  · rename_i r hparse
    obtain ⟨bs, hr, hroot, hparsed⟩ := Markup.parse_ok hparse
    obtain ⟨hparts, hkinds⟩ := bind_matched hr hroot hparsed (Scan.ofStrings strings kind).holes
    obtain ⟨hreg, -, -⟩ := bind_regular hr hroot hparsed (Scan.ofStrings strings kind).holes
    obtain rfl := Except.ok.inj h
    have hlabels {r : Markup.Rooted} (hr : r.Regular bs) :
        r.content.labels = (r.root :: labelsOfAll bs).map r.tree.kind := by
      rw [hr.content, Branch.labels_node, Branch.labelsOfAll_mapAll]
      rfl
    refine ⟨r, hparse, ?_, ?_⟩
    · rw [hlabels hr]
      exact hparts
    · rw [hlabels hr]
      exact (hlabels hreg).trans hkinds

end Template

end LiveMarkup
