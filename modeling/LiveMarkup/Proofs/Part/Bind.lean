import LiveMarkup.Proofs.Part.Fits
import Mathlib.Data.List.TakeDrop

set_option autoImplicit false

/-!
Copying a compiled template. The prototype is grafted, and the parts are bound one after the other;
each node part opens an empty region behind its anchor and adds a closing text where no sibling
follows. Nothing fails: every part finds the node that it stands at in the prototype.
-/

namespace LiveMarkup

open Branch (labelsOfAll mapAll)
open LiveMarkup.Tree (Adds Exchange Grows Stretch)

/-- What a part shows before it has values. -/
def TemplatePart.blank {α : Type} (c : TemplatePart) : Shown α :=
  match c.kind with
  | .node => .region []
  | .attribute .. => .attribute none

/-- A part that was never given values. -/
def Part.Blank : Part → Shown NodeId → Prop
  | .node part, shown => part.state = .empty ∧ shown = .region []
  | .attribute part, _ => part.previous = none

variable {objects : Objects} {known : Registry} {kind : NodeId → NodeKind} {exact : Bool}

theorem Part.Fits.of_stop {label stop stop' : Nat → NodeId} {part : Part} {c : TemplatePart}
    {s : Shown NodeId} (h : part.Fits objects known kind exact label stop c s)
    (hs : stop' c.index = stop c.index) :
    part.Fits objects known kind exact label stop' c s := by
  cases part with
  | node part =>
    obtain ⟨f, rfl, hk, hstart, hstop, hf⟩ := h
    exact ⟨f, rfl, hk, hstart, hstop.trans hs.symm, hf⟩
  | «attribute» part => exact h

namespace Template

variable {α : Type} {t : Template} {label closing closing' : Nat → α}
  {front rest : List TemplatePart} {c : TemplatePart}

/-- The copy while its parts are being bound: those of `front` are. -/
def opening (t : Template) (label closing : Nat → α) (front : List TemplatePart) : Planting α :=
  t.planting label closing (front.map TemplatePart.blank)

theorem regionAt_opening (hp : t.parts = front ++ rest) (i : Nat) :
    (t.opening label closing front).region i =
      Shown.regionAt front (front.map TemplatePart.blank) i := by
  have happ : Shown.regionAt (front ++ rest) (front.map TemplatePart.blank ++ []) i =
      (Shown.regionAt front (front.map TemplatePart.blank) i).or
        (Shown.regionAt rest ([] : List (Shown α)) i) :=
    Shown.regionAt_append (by simp) i
  rw [List.append_nil] at happ
  simp only [opening, planting, hp, happ]
  simp [Shown.regionAt]

theorem opening_node (hp : t.parts = front ++ c :: rest) (hk : c.kind = .node)
    (hne : ∀ d ∈ front, d.index ≠ c.index) :
    t.opening label closing (front ++ [c]) = (t.opening label closing front).set c.index [] := by
  have hp' : t.parts = front ++ [c] ++ rest := by simp [hp]
  have hregion : (t.opening label closing (front ++ [c])).region =
      ((t.opening label closing front).set c.index []).region := by
    funext i
    have hblank : (c.blank : Shown α) = .region [] := by simp [TemplatePart.blank, hk]
    rw [regionAt_opening hp', List.map_append,
      Shown.regionAt_append (by simp), List.map_singleton, hblank]
    by_cases hi : i = c.index
    · subst hi
      rw [Planting.region_set_self, Shown.regionAt_eq_none hne]
      simp [Shown.regionAt, Shown.regionOf]
    · rw [Planting.region_set_of_ne hi, regionAt_opening hp]
      simp [Shown.regionAt, Shown.regionOf, Ne.symm hi]
  exact congrArg (Planting.mk label · closing) hregion

theorem opening_attribute (hp : t.parts = front ++ c :: rest) {name : String}
    {strings : AttributeStrings} (hk : c.kind = .attribute name strings) :
    t.opening label closing (front ++ [c]) = t.opening label closing front := by
  have hp' : t.parts = front ++ [c] ++ rest := by simp [hp]
  have hregion : (t.opening label closing (front ++ [c])).region =
      (t.opening label closing front).region := by
    funext i
    have hblank : (c.blank : Shown α) = .attribute none := by simp [TemplatePart.blank, hk]
    rw [regionAt_opening hp', List.map_append,
      Shown.regionAt_append (by simp), List.map_singleton, hblank, regionAt_opening hp]
    simp [Shown.regionAt, Shown.regionOf]
  exact congrArg (Planting.mk label · closing) hregion

/-- Only the closing labels of regions that are open matter. -/
theorem forest_opening (hp : t.parts = front ++ rest)
    (h : ∀ c ∈ front, closing' c.index = closing c.index) :
    (t.opening label closing' front).forest t.pattern =
      (t.opening label closing front).forest t.pattern := by
  refine Planting.forest_congr fun i _ => ⟨rfl, rfl, fun hr => ?_⟩
  by_cases hi : ∃ c ∈ front, c.index = i
  · obtain ⟨c, hc, rfl⟩ := hi
    exact h c hc
  · refine absurd ?_ hr
    rw [regionAt_opening hp]
    exact Shown.regionAt_eq_none fun c hc he => hi ⟨c, hc, he⟩

end Template

/-- A copy in the course of being bound, in an arena that had none of its nodes. -/
structure Template.Opens (t : Template) (before tree : Tree) (root : NodeId)
    (label closing : Nat → NodeId) (front : List TemplatePart) : Prop where
  adds : Adds before tree
    (root :: labelsOfAll ((t.opening label closing front).forest t.pattern))
  stretch : Stretch tree root [] ((t.opening label closing front).forest t.pattern) []
  parent_root : tree.parent root = none
  root_kind : tree.kind root = t.kindAt 0
  kinds : ∀ i ∈ labelsOfAll t.pattern, tree.kind (label i) = t.kindAt i
  closings : ∀ c ∈ t.parts, c.kind = .node →
    tree.contains (closing c.index) = true ∧ tree.kind (closing c.index) = .text ""
  followed : ∀ c ∈ t.parts, c.kind = .node → Branch.nextOfAll c.index t.pattern ≠ none →
    closing c.index = label c.index
  textLeaves : before.TextLeaves → tree.TextLeaves

namespace Template.Opens

variable {t : Template} {before tree : Tree} {root : NodeId} {label closing : Nat → NodeId}
  {front rest : List TemplatePart} {c : TemplatePart}

theorem contains_label (h : t.Opens before tree root label closing front) {i : Nat}
    (hi : i ∈ labelsOfAll t.pattern) : tree.contains (label i) = true :=
  h.stretch.holds.contains
    (Planting.label_mem_forest (π := t.opening label closing front) hi)

/-- A part of an attribute finds its element. -/
theorem bind_attribute (h : t.Opens before tree root label closing front) (hs : t.Sound)
    (hp : t.parts = front ++ c :: rest) {name : String} {strings : AttributeStrings}
    (hk : c.kind = .attribute name strings) :
    Part.bind tree c (label c.index) =
        (tree, .ok (.attribute { element := label c.index, name, strings })) ∧
      t.Opens before tree root label closing (front ++ [c]) := by
  have hc : c ∈ t.parts := by simp [hp]
  obtain ⟨tag, attributes, hkind, -⟩ := hs.attribute_part hc hk
  have helement : (tree.kind (label c.index)).isElement = true := by
    rw [h.kinds _ (hs.index_mem hc), hkind]
    rfl
  refine ⟨by simp [Part.bind, hk, helement], ?_⟩
  have hopening : t.opening label closing (front ++ [c]) = t.opening label closing front :=
    opening_attribute hp hk
  exact { h with adds := hopening ▸ h.adds, stretch := hopening ▸ h.stretch }

/-- A node part before another node ends there. -/
theorem bind_followed (h : t.Opens before tree root label closing front) (hs : t.Sound)
    (hp : t.parts = front ++ c :: rest) (hk : c.kind = .node) {j : Nat}
    (hj : Branch.nextOfAll c.index t.pattern = some j) :
    Part.bind tree c (label c.index) =
        (tree, .ok (.node (.mk (label c.index) (label j) .empty))) ∧
      t.Opens before tree root label closing (front ++ [c]) := by
  have hc : c ∈ t.parts := by simp [hp]
  have hne : ∀ d ∈ front, d.index ≠ c.index :=
    fun d hd => hs.index_ne hp hk d (List.mem_append_left _ hd)
  have hopening : t.opening label closing (front ++ [c]) =
      (t.opening label closing front).set c.index [] := opening_node hp hk hne
  have hclosed : (t.opening label closing front).region c.index = none :=
    (regionAt_opening hp c.index).trans (Shown.regionAt_eq_none hne)
  obtain ⟨place, hfill, hfront, hbefore, hsome, -⟩ := Planting.exists_anchor
    (π := t.opening label closing front) t.nodup_pattern (hs.index_mem hc)
  replace hfront := hfront hclosed
  have hsame : (t.opening label closing (front ++ [c])).forest t.pattern =
      (t.opening label closing front).forest t.pattern := by
    rw [hopening, hfill, hfront]
    simp [Planting.closer, hj]
  obtain ⟨left, hleft⟩ := hbefore []
  obtain ⟨right, hright⟩ := hsome j hj []
  have hinner : Stretch tree (place.owner root) (left ++ [label c.index]) [] (label j :: right) := by
    have hstretch := h.stretch
    rw [hfront] at hstretch
    have hin := hstretch.inner
    rw [hleft, hright] at hin
    exact hin
  have hparent := (hinner.sides (label c.index) (by simp)).2
  have hnext : tree.nextSibling (label c.index) = some (label j) :=
    Tree.nextSibling_of_children hparent (by rw [hinner.children]; simp; rfl)
      hinner.nodup_children
  have htext : (tree.kind (label c.index)).isText = true := by
    rw [h.kinds _ (hs.index_mem hc), (hs.node_part hc hk).1]
    rfl
  refine ⟨by simp [Part.bind, hk, hparent, htext, hnext], ?_⟩
  exact { h with adds := hsame ▸ h.adds, stretch := hsame ▸ h.stretch }

/-- A node part that is the last of its siblings ends at a new text. -/
theorem bind_last (h : t.Opens before tree root label closing front) (hs : t.Sound)
    (hp : t.parts = front ++ c :: rest) (hk : c.kind = .node)
    (hj : Branch.nextOfAll c.index t.pattern = none) :
    ∃ tree' stop, Part.bind tree c (label c.index) =
        (tree', .ok (.node (.mk (label c.index) stop .empty))) ∧
      t.Opens before tree' root label (Function.update closing c.index stop) (front ++ [c]) := by
  have hc : c ∈ t.parts := by simp [hp]
  have hne : ∀ d ∈ front, d.index ≠ c.index :=
    fun d hd => hs.index_ne hp hk d (List.mem_append_left _ hd)
  obtain ⟨u, stop, hu⟩ : ∃ u stop, tree.create (.text "") = (u, stop) := ⟨_, _, rfl⟩
  have hg := h.adds.accounted.grows_create (.text "")
  have hkind := h.adds.accounted.kind_create (.text "")
  rw [hu] at hg hkind
  obtain ⟨closing', hclosing'⟩ : ∃ closing', closing' = Function.update closing c.index stop :=
    ⟨_, rfl⟩
  have hself : closing' c.index = stop := by simp [hclosing']
  have hother {i : Nat} (hi : i ≠ c.index) : closing' i = closing i := by simp [hclosing', hi]
  have hopening : t.opening label closing' (front ++ [c]) =
      (t.opening label closing' front).set c.index [] := opening_node hp hk hne
  have hclosed : (t.opening label closing' front).region c.index = none :=
    (regionAt_opening hp c.index).trans (Shown.regionAt_eq_none hne)
  obtain ⟨place, hfill, hfront, hbefore, -, hnone⟩ := Planting.exists_anchor
    (π := t.opening label closing' front) t.nodup_pattern (hs.index_mem hc)
  replace hfront := hfront hclosed
  rw [forest_opening hp fun d hd => hother (hne d hd)] at hfront
  have hnew : (t.opening label closing' (front ++ [c])).forest t.pattern =
      place.fill [.node stop []] := by
    rw [hopening, hfill]
    simp only [Planting.closer, hj, List.nil_append]
    exact congrArg (fun n => place.fill [.node n []]) hself
  have hstretch := h.stretch
  rw [hfront] at hstretch
  have hinner := hstretch.inner
  rw [hnone hj] at hinner
  obtain ⟨left, hleft⟩ := hbefore []
  replace hleft : place.before [] = left ++ [label c.index] := hleft
  have hparent := (hinner.sides (label c.index) (by simp [hleft])).2
  have hnext : tree.nextSibling (label c.index) = none :=
    Tree.nextSibling_of_children_last hparent (by rw [hinner.children, hleft]; simp; rfl)
      hinner.nodup_children
  have htext : (tree.kind (label c.index)).isText = true := by
    rw [h.kinds _ (hs.index_mem hc), (hs.node_part hc hk).1]
    rfl
  obtain ⟨hx, hput, hkinds⟩ := hinner.append hg
  have hleaves : before.TextLeaves → (u.append (place.owner root) stop).TextLeaves := fun hb =>
    have howner : (tree.kind (place.owner root)).isText = false :=
      (h.textLeaves hb).not_text hinner.live (by rw [hinner.children, hleft]; simp)
    (h.textLeaves hb).exchange hx hput howner (by simp)
  have hkeep {n : NodeId} (hl : tree.contains n = true) :
      (u.append (place.owner root) stop).contains n = true ∧
        (u.append (place.owner root) stop).kind n = tree.kind n :=
    ⟨hx.contains_other hl (by simp), (hkinds n).trans (Tree.kind_of_core (hg.core n hl))⟩
  have hstop := hput.holds.contains (n := stop) (by simp)
  obtain ⟨hx, hput⟩ := hstretch.outer hx (by rw [hnone hj]; exact hput)
  have hadds := h.adds
  rw [hfront] at hadds
  refine ⟨u.append (place.owner root) stop, stop, ?_, ?_⟩
  · simp [Part.bind, hk, hparent, htext, hnext, hu]
  · rw [← hclosing']
    refine ⟨?_, ?_, ?_, ?_, fun i hi => ?_, fun d hd hdk => ?_, fun d hd hdk hnext => ?_, hleaves⟩
    · rw [hnew]
      exact hadds.exchange hx hstretch.live
    · rw [hnew]
      exact hput
    · exact hx.parent_owner.trans h.parent_root
    · exact hx.kind_owner.trans h.root_kind
    · exact (hkeep (h.contains_label hi)).2.trans (h.kinds i hi)
    · by_cases hd' : d.index = c.index
      · rw [hd', hself]
        exact ⟨hstop, (hkinds stop).trans hkind⟩
      · obtain ⟨hl, ht⟩ := h.closings d hd hdk
        rw [hother hd']
        exact ⟨(hkeep hl).1, (hkeep hl).2.trans ht⟩
    · rw [hother fun he => hnext (by rw [he]; exact hj)]
      exact h.followed d hd hdk hnext

variable (objects known exact) in
/-- All parts find their nodes, and none of them shows anything yet. -/
theorem bindAll (h : t.Opens before tree root label closing front) (hs : t.Sound)
    (hp : t.parts = front ++ rest) :
    ∃ tree' closing' parts,
      Part.bindAll tree (rest.map fun c => (c, label c.index)) = (tree', .ok parts) ∧
      t.Opens before tree' root label closing' t.parts ∧
      (∀ d ∈ front, closing' d.index = closing d.index) ∧
      (∀ kind, Part.FitsAll objects known kind exact label (t.stopAt label closing') parts rest
        (rest.map TemplatePart.blank)) ∧
      List.Forall₂ Part.Blank parts (rest.map TemplatePart.blank) := by
  induction rest generalizing tree closing front with
  | nil =>
    rw [List.append_nil] at hp
    exact ⟨tree, closing, [], rfl, hp ▸ h, fun _ _ => rfl, fun _ => ⟨rfl, rfl⟩, .nil⟩
  | cons c rest ih =>
    -- What one part does, however it is bound.
    have hstep {tree' : Tree} {closing' : Nat → NodeId} {part : Part}
        (hbind : Part.bind tree c (label c.index) = (tree', .ok part))
        (hopens : t.Opens before tree' root label closing' (front ++ [c]))
        (hsame : ∀ d ∈ front, closing' d.index = closing d.index)
        (hfits : ∀ kind, part.Fits objects known kind exact label (t.stopAt label closing') c c.blank)
        (hblank : part.Blank c.blank) :
        ∃ tree' closing' parts,
          Part.bindAll tree ((c :: rest).map fun c => (c, label c.index)) = (tree', .ok parts) ∧
          t.Opens before tree' root label closing' t.parts ∧
          (∀ d ∈ front, closing' d.index = closing d.index) ∧
          (∀ kind, Part.FitsAll objects known kind exact label (t.stopAt label closing') parts
            (c :: rest) ((c :: rest).map TemplatePart.blank)) ∧
          List.Forall₂ Part.Blank parts ((c :: rest).map TemplatePart.blank) := by
      obtain ⟨tree'', closing'', parts, hall, hopens, hkept, hparts, hblanks⟩ :=
        ih hopens (by simp [hp])
      refine ⟨tree'', closing'', part :: parts, ?_, hopens, fun d hd => ?_,
        fun kind => ⟨c, rest, c.blank, _, rfl, rfl, (hfits kind).of_stop ?_, hparts kind⟩,
        .cons hblank hblanks⟩
      · simp [Part.bindAll, hbind, hall, Except.map]
      · exact (hkept d (List.mem_append_left _ hd)).trans (hsame d hd)
      · simp only [Template.stopAt, hkept c (by simp)]
    have hregion : c.kind = .node → (c.blank : Shown NodeId) = .region [] := fun hk => by
      simp [TemplatePart.blank, hk]
    cases hk : c.kind with
    | «attribute» name strings =>
      obtain ⟨hbind, hopens⟩ := h.bind_attribute hs hp hk
      have hblank : (c.blank : Shown NodeId) = .attribute none := by simp [TemplatePart.blank, hk]
      refine hstep hbind hopens (fun _ _ => rfl) ?_ rfl
      exact fun _ => ⟨hblank.trans (by simp [AttributePart.current]), hk, rfl, by simp⟩
    | node =>
      cases hj : Branch.nextOfAll c.index t.pattern with
      | some j =>
        obtain ⟨hbind, hopens⟩ := h.bind_followed hs hp hk hj
        refine hstep hbind hopens (fun _ _ => rfl) ?_ ⟨rfl, hregion hk⟩
        exact fun _ =>
          ⟨[], hregion hk, hk, rfl, by simp [NodePart.stop, Template.stopAt, hj], trivial⟩
      | none =>
        obtain ⟨tree', stop, hbind, hopens⟩ := h.bind_last hs hp hk hj
        refine hstep hbind hopens (fun d hd => ?_) ?_ ⟨rfl, hregion hk⟩
        · exact Function.update_of_ne (hs.index_ne hp hk d (List.mem_append_left _ hd)) _ _
        · exact fun _ =>
          ⟨[], hregion hk, hk, rfl, by simp [NodePart.stop, Template.stopAt, hj], trivial⟩

end Template.Opens

namespace Template

variable {t : Template}

theorem placesFrom_eq {order : List NodeId} {parts : List TemplatePart} {index : Nat} (root : NodeId)
    (hs : parts.Pairwise (·.index ≤ ·.index)) (hlo : ∀ c ∈ parts, index ≤ c.index)
    (hhi : ∀ c ∈ parts, c.index < index + order.length) :
    TemplatePart.placesFrom index order parts =
      .ok (parts.map fun c => (c, order[c.index - index]?.getD root)) := by
  induction order generalizing index parts with
  | nil =>
    obtain rfl : parts = [] := List.eq_nil_iff_forall_not_mem.2 fun c hc =>
      Nat.not_lt.2 (hlo c hc) (hhi c hc)
    rfl
  | cons node order ih =>
    obtain ⟨here, hhere⟩ : ∃ here, here = parts.takeWhile (·.index == index) := ⟨_, rfl⟩
    obtain ⟨later, hlater⟩ : ∃ later, later = parts.dropWhile (·.index == index) := ⟨_, rfl⟩
    have hparts : parts = here ++ later := by rw [hhere, hlater, List.takeWhile_append_dropWhile]
    have hnow : ∀ c ∈ here, c.index = index := fun c hc => by
      have hall := List.all_takeWhile (p := fun c : TemplatePart => c.index == index) (l := parts)
      rw [← hhere, List.all_eq_true] at hall
      simpa using hall c hc
    -- The first part that is left has another index, and those behind it are no smaller.
    have hbehind : ∀ c ∈ later, index + 1 ≤ c.index := by
      rcases hl : later with - | ⟨d, ds⟩
      · simp
      · have hd : d.index ≠ index := by
          have hnot := List.head?_dropWhile_not (fun c : TemplatePart => c.index == index) parts
          rw [← hlater, hl] at hnot
          simpa using hnot
        have hle := hlo d (by simp [hparts, hl])
        rw [hparts, hl, List.pairwise_append, List.pairwise_cons] at hs
        rw [List.forall_mem_cons]
        exact ⟨by omega, fun c hc => by have := hs.2.1.1 c hc; omega⟩
    have hrest := @ih later (index + 1) (List.pairwise_append.1 (hparts ▸ hs)).2.1 hbehind
      fun c hc => by
        have := hhi c (by simp [hparts, hc])
        rw [List.length_cons] at this
        omega
    rw [TemplatePart.placesFrom, List.span_eq_takeWhile_dropWhile, ← hhere, ← hlater]
    simp only [hrest, Except.map, hparts, List.map_append, Except.ok.injEq]
    congr 1
    · exact List.map_congr_left fun c hc => by simp [hnow c hc]
    · refine List.map_congr_left fun c hc => ?_
      have := hbehind c hc
      rw [show c.index - index = c.index - (index + 1) + 1 by omega, List.getElem?_cons_succ]

/-- Every part finds a node where the copied nodes are as many as the prototype's. -/
theorem Sound.places_eq (hs : t.Sound) {order : List NodeId} (root : NodeId)
    (h : order.length = t.kinds.length) :
    t.places order = .ok (t.parts.map fun c => (c, order[c.index]?.getD root)) :=
  placesFrom_eq root hs.sorted (fun _ _ => Nat.zero_le _)
    fun c hc => by simpa [h] using hs.index_lt c hc

/-- The prototype's copy in a tree, before a part is bound. -/
def imported (t : Template) (tree : Tree) : Tree × NodeId :=
  tree.importFrom t.prototype.tree t.prototype.root

/-- The nodes of the prototype's copy, in pre-order. -/
def order (t : Template) (tree : Tree) : List NodeId :=
  (t.imported tree).1.preorder (t.imported tree).2

/-- A copy that has just come into being: nothing else has changed, it is exact, and its parts have
no values yet. -/
structure Copies (t : Template) (objects : Objects) (known : Registry) (exact : Bool)
    (before tree : Tree) (copy : Copied) (label closing : Nat → NodeId)
    (f : List (Branch NodeId)) : Prop where
  root_eq : copy.root = (t.imported before).2
  places : ∀ c ∈ t.parts, (t.order before)[c.index]? = some (label c.index)
  adds : Adds before tree (copy.root :: labelsOfAll f)
  stretch : Stretch tree copy.root [] f []
  parent_root : tree.parent copy.root = none
  root_kind : tree.kind copy.root = t.kindAt 0
  textLeaves : before.TextLeaves → tree.TextLeaves
  copied : t.Copy tree.kind exact label closing (t.parts.map TemplatePart.blank) f
  fits : Part.FitsAll objects known tree.kind exact label (t.stopAt label closing) copy.parts
    t.parts (t.parts.map TemplatePart.blank)
  blank : List.Forall₂ Part.Blank copy.parts (t.parts.map TemplatePart.blank)

theorem forall₂_blank {α : Type} (parts : List TemplatePart) :
    List.Forall₂ (Shown.Matches (α := α)) parts (parts.map TemplatePart.blank) := by
  induction parts with
  | nil => exact .nil
  | cons c parts ih =>
    refine .cons ?_ ih
    cases hk : c.kind <;> simp [TemplatePart.blank, hk, Shown.Matches]

theorem attributesAt_blank {α : Type} (parts : List TemplatePart) (i : Nat) :
    Shown.attributesAt parts (parts.map (TemplatePart.blank (α := α))) i = [] := by
  induction parts with
  | nil => rfl
  | cons c parts ih =>
    rw [Shown.attributesAt] at ih ⊢
    rw [List.map_cons, List.zip_cons_cons, List.filterMap_cons, ih]
    cases hk : c.kind <;> simp [TemplatePart.blank, hk, Shown.attributeOf]

theorem extended_nil (kind : NodeKind) : kind.extended [] = kind := by
  cases kind <;> simp [NodeKind.extended]

/-- The prototype's copy is one with no part bound. -/
theorem Sound.opens_imported (hs : t.Sound) {before : Tree} (ha : before.Accounted) :
    ∃ label, (t.order before).map (t.imported before).1.kind = t.kinds ∧
      (∀ i, label i = (t.order before)[i]?.getD (t.imported before).2) ∧
      t.Opens before (t.imported before).1 (t.imported before).2 label label [] := by
  obtain ⟨c, hid, hg, hkinds⟩ := ha.grows_graft t.content
  obtain ⟨u, root, hu⟩ : ∃ u root, t.imported before = (u, root) := ⟨_, _, rfl⟩
  have hgraft : before.graft t.content = (u, root) := hu
  rw [hgraft] at hid hg hkinds
  obtain ⟨root', bs⟩ := c
  obtain rfl : root' = root := hid
  replace hkinds : (Branch.node root' bs).map u.kind = t.content := hkinds
  have hholds := hg.holds
  have horder : t.order before = root' :: labelsOfAll bs := by
    rw [order, hu]
    exact hholds.preorder hg.nodup
  rw [horder, hu]
  have hlabels : (root' :: labelsOfAll bs).map u.kind = t.kinds := by
    rw [kinds, ← hkinds, Branch.labels_map, Branch.labels_node]
  have hlength : (root' :: labelsOfAll bs).length = t.kinds.length := by
    rw [← hlabels, List.length_map]
  obtain ⟨label, hlabel⟩ : ∃ label : Nat → NodeId,
      label = fun i => (root' :: labelsOfAll bs)[i]?.getD root' := ⟨_, rfl⟩
  have hkind (i : Nat) (hi : i < t.kinds.length) : u.kind (label i) = t.kindAt i := by
    have hi' : i < (root' :: labelsOfAll bs).length := hlength ▸ hi
    simp only [hlabel, kindAt, ← hlabels, List.getElem?_map, List.getElem?_eq_getElem hi',
      Option.map_some, Option.getD_some]
  have hforest : (t.opening label label []).forest t.pattern = bs := by
    have hclosed (i : Nat) : (t.opening label label []).region i = none :=
      regionAt_opening (List.nil_append t.parts).symm i
    rw [Planting.forest_of_closed fun i _ => hclosed i, pattern, ← hkinds, Branch.map_node, Branch.branches,
      Branch.numberedAll_mapAll, Branch.mapAll_numberedAll (g := id) fun i n hi => ?_,
      Branch.mapAll_id]
    change label (1 + i) = n
    rw [hlabel, Nat.add_comm]
    simp [hi]
  have hpattern {i : Nat} (hi : i ∈ labelsOfAll t.pattern) : i < t.kinds.length :=
    (mem_pattern.1 hi).2
  refine ⟨label, hlabels, fun i => by rw [hlabel], ?_⟩
  have hstretch : Stretch u root' [] bs [] :=
    ⟨hholds.1, by simpa using hholds.2.2.1, hholds.2.2.2, by simp, by simpa using hg.nodup⟩
  refine ⟨?_, ?_, hholds.2.1, ?_, fun i hi => hkind i (hpattern hi), fun d hd hdk => ?_,
    fun _ _ _ _ => rfl, fun hl => ?_⟩
  · rw [hforest]
    exact hg.toAdds
  · rw [hforest]
    exact hstretch
  · have h0 := hkind 0 (by rw [← hlength]; simp)
    rwa [hlabel] at h0
  · have hi := hs.index_mem hd
    refine ⟨?_, (hkind _ (hpattern hi)).trans (hs.node_part hd hdk).1⟩
    have hm := Planting.label_mem_forest (π := t.opening label label []) hi
    rw [hforest] at hm
    exact hstretch.holds.contains hm
  · have hroot : t.content.label.isText = false := by
      rcases hs.root with h | h <;> rw [h] <;> rfl
    exact hl.grows hg (hkinds.symm ▸ Branch.leaves_of_label hroot hs.leaves)

/-- Copying a sound template succeeds. -/
theorem Sound.copyInto (hs : t.Sound) {before : Tree} (ha : before.Accounted) (objects : Objects)
    (known : Registry) (exact : Bool) :
    ∃ tree copy label closing f, t.copyInto before = (tree, .ok copy) ∧
      t.Copies objects known exact before tree copy label closing f := by
  obtain ⟨label, hkinds, hlabel, hopens⟩ := hs.opens_imported ha
  have hlength : (t.order before).length = t.kinds.length := by rw [← hkinds, List.length_map]
  obtain ⟨tree, closing, parts, hbind, hopens, -, hfits, hblank⟩ :=
    hopens.bindAll objects known exact hs rfl
  have hplaces : t.places (t.order before) = .ok (t.parts.map fun c => (c, label c.index)) := by
    rw [hs.places_eq (t.imported before).2 hlength]
    simp only [hlabel]
  refine ⟨tree, ⟨parts, (t.imported before).2⟩, label, closing, _, ?_, rfl, fun c hc => ?_,
    hopens.adds, hopens.stretch, hopens.parent_root, hopens.root_kind, hopens.textLeaves,
    ⟨forall₂_blank t.parts, rfl, fun i hi => ?_, fun c hc hk => (hopens.closings c hc hk).2,
      hopens.followed⟩, hfits tree.kind, hblank⟩
  · simp only [order, imported] at hplaces hbind
    simp only [Template.copyInto, hplaces, hbind, Except.map, imported]
  · rw [hlabel, List.getElem?_eq_getElem (hlength ▸ hs.index_lt c hc), Option.getD_some]
  · rw [hopens.kinds i hi, attributesAt_blank, extended_nil]

end Template

end LiveMarkup
