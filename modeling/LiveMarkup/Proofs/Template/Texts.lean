import LiveMarkup.Proofs.Markup.Guarded
import LiveMarkup.Proofs.Template.Ranges
import LiveMarkup.Proofs.Value.Denotation

set_option autoImplicit false

/-!
Templates filled with texts. Every node of a compiled template is legible, so its prototype can be
written; and where the prototype is guarded, what its parts show brings nothing but texts and values
of attributes: the HTML is read as a tree whose skeleton is that of the prototype with the attributes
of its parts.
-/

namespace LiveMarkup

open Branch (labelsOfAll mapAll numberedAll skeletonAll)
open Html (guarded guardedAll)
open Markup (IsWord)

/-- The attribute that a part gives its element, without a value. -/
def TemplatePart.erased? (c : TemplatePart) : Option Attribute := c.name?.map fun name => ⟨name, ""⟩

/-- A node part shows texts, and an attribute part its attribute. -/
def TemplatePart.ShowsText (c : TemplatePart) : Shown NodeKind → Prop
  | .region bs => c.kind = .node ∧ ∀ b ∈ bs, b.IsText
  | .attribute a => a.map Attribute.erased = c.erased?

/-- More attributes with words as names leave a node legible. -/
theorem NodeKind.Legible.extended {kind : NodeKind} (h : kind.Legible) {attributes : List Attribute}
    (hnames : ∀ a ∈ attributes, IsWord a.name.toList) : (kind.extended attributes).Legible := by
  cases kind with
  | element name own =>
    exact ⟨h.name, h.letter, List.forall_mem_append.2 ⟨h.attributes, hnames⟩⟩
  | _ => exact h

theorem NodeKind.erased_extended (kind : NodeKind) (attributes : List Attribute) :
    (kind.extended attributes).erased = kind.erased.extended (attributes.map Attribute.erased) := by
  cases kind with
  | element name own => simp [extended, erased]
  | _ => rfl

namespace Template

/-- A template whose nodes and whose attributes that are computed have legible names. -/
structure Legible (t : Template) : Prop where
  kinds : ∀ kind ∈ t.kinds, kind.Legible
  names : ∀ c ∈ t.parts, ∀ name ∈ c.name?, IsWord name.toList

theorem mem_leftFrom {holes : List Hole} {front kinds : List NodeKind} {left : NodeKind}
    (h : left ∈ leftFrom holes front kinds) :
    ∃ kind ∈ kinds, ∃ before, left = leftAt holes before kind := by
  induction kinds generalizing front with
  | nil => cases h
  | cons kind kinds ih =>
    rcases List.mem_cons.1 h with rfl | h
    · exact ⟨kind, List.mem_cons_self, front, rfl⟩
    · obtain ⟨other, hmem, before, rfl⟩ := ih h
      exact ⟨other, List.mem_cons_of_mem kind hmem, before, rfl⟩

/-- What is left of a legible node is legible. -/
theorem legible_leftAt {kind : NodeKind} (h : kind.Legible) (holes : List Hole)
    (front : List NodeKind) : (leftAt holes front kind).Legible := by
  cases kind with
  | element name attributes =>
    exact ⟨h.name, h.letter, fun a ha => h.attributes a (List.mem_filter.1 ha).1⟩
  | comment content =>
    rw [leftAt]
    split
    · trivial
    · exact h
  | _ => trivial

/-- The attributes that are computed have names of the markup. -/
theorem isWord_of_mem_foundAt {kind : NodeKind} (h : kind.Legible) {holes : List Hole}
    {front : List NodeKind} {x : TemplatePart × List Nat} (hx : x ∈ foundAt holes front kind) :
    ∀ name ∈ x.1.name?, IsWord name.toList := by
  cases kind with
  | element tag attributes =>
    obtain ⟨y, hy, hpart⟩ := List.mem_filterMap.1 hx
    obtain ⟨-, -, hname, -⟩ := AttributeHole.partOf_eq_some hpart
    intro name hmem
    rw [hname] at hmem
    obtain rfl := Option.some.inj hmem
    exact h.attributes y.1 (List.mem_filter.1 (AttributeHole.mem_assign hy).1).1
  | comment content =>
    rw [foundAt] at hx
    split at hx
    · obtain ⟨k, -, rfl⟩ := List.mem_map.1 hx
      intro name hname
      cases hname
    · cases hx
  | _ => cases hx

/-- Every HTML template is legible. -/
theorem legible_compile {strings : TemplateStrings} {detectDocuments : Bool} {t : Template}
    (h : (compile strings .html detectDocuments).outcome = .ok t) : t.Legible := by
  obtain ⟨r, hparse, hparts, hkinds⟩ := compile_matched h
  have hlegible : r.content.Legible := by
    rw [parse] at hparse
    split at hparse
    · exact Markup.legible_of_parseRooted (show NodeKind.Legible .document from trivial) hparse
    · exact Markup.legible_of_parseRooted (show NodeKind.Legible .fragment from trivial) hparse
  constructor
  · rw [hkinds]
    intro kind hkind
    obtain ⟨parsed, hparsed, front, rfl⟩ := mem_leftFrom hkind
    exact legible_leftAt (hlegible parsed hparsed) _ front
  · rw [hparts]
    intro c hc
    obtain ⟨x, hx, rfl⟩ := List.mem_map.1 hc
    obtain ⟨before, kind, after, hlabels, hx⟩ := mem_foundFrom.1 hx
    refine isWord_of_mem_foundAt (hlegible kind ?_) hx
    rw [hlabels]
    simp

/-- The attributes that the parts at node `i` give it, without their values. -/
def erasedAt (t : Template) (i : Nat) : List Attribute :=
  t.parts.filterMap fun c => if c.index = i then c.erased? else none

/-- The skeleton of the prototype with the attributes of its parts. -/
def skeleton (t : Template) : List (Branch NodeKind) :=
  skeletonAll (mapAll (fun i => (t.kindAt i).extended (t.erasedAt i)) t.pattern)

section Shown

variable {t : Template} {shown : List (Shown NodeKind)}

theorem attributeOf_erased {c : TemplatePart} {s : Shown NodeKind} (h : c.ShowsText s) (i : Nat) :
    (Shown.attributeOf i (c, s)).map Attribute.erased = if c.index = i then c.erased? else none := by
  cases s with
  | region bs =>
    have hnone : c.erased? = none := by simp [TemplatePart.erased?, TemplatePart.name?, h.1]
    rw [hnone, ite_self]
    rfl
  | «attribute» a =>
    rw [← show a.map Attribute.erased = c.erased? from h, Shown.attributeOf]
    split <;> rfl

theorem map_erased_attributesAt (h : List.Forall₂ TemplatePart.ShowsText t.parts shown) (i : Nat) :
    (Shown.attributesAt t.parts shown i).map Attribute.erased = t.erasedAt i := by
  rw [Shown.attributesAt, erasedAt, List.map_filterMap]
  generalize t.parts = parts at h ⊢
  induction h with
  | nil => rfl
  | cons hc _ ih =>
    rw [List.zip_cons_cons, List.filterMap_cons, List.filterMap_cons, attributeOf_erased hc, ih]

/-- The attributes that parts show have the parts' names. -/
theorem isWord_of_mem_attributesAt (ht : t.Legible)
    (h : List.Forall₂ TemplatePart.ShowsText t.parts shown) {i : Nat} {a : Attribute}
    (ha : a ∈ Shown.attributesAt t.parts shown i) : IsWord a.name.toList := by
  have herased : a.erased ∈ t.erasedAt i := map_erased_attributesAt h i ▸ List.mem_map_of_mem ha
  obtain ⟨c, hc, he⟩ := List.mem_filterMap.1 herased
  split at he
  · obtain ⟨name, hname, he⟩ := Option.map_eq_some_iff.1 he
    rw [show a.name = name from congrArg Attribute.name he.symm]
    exact ht.names c hc name hname
  · cases he

/-- Texts are shown behind anchors only. -/
theorem regionAt_texts (hsound : t.Sound)
    (h : List.Forall₂ TemplatePart.ShowsText t.parts shown) {i : Nat} {bs : List (Branch NodeKind)}
    (hr : Shown.regionAt t.parts shown i = some bs) :
    t.kindAt i = .text "" ∧ ∀ b ∈ bs, b.IsText := by
  obtain ⟨⟨c, s⟩, hmem, hof⟩ := List.exists_of_findSome?_eq_some hr
  have hshows := (List.forall₂_iff_zip.1 h).2 hmem
  cases s with
  | region cs =>
    simp only [Shown.regionOf] at hof
    split at hof
    · next hi =>
      obtain rfl := Option.some.inj hof
      exact ⟨hi ▸ (hsound.node_part (List.of_mem_zip hmem).1 hshows.1).1, hshows.2⟩
    · cases hof
  | «attribute» a => cases hof

end Shown

end Template

namespace Planting

variable {π : Planting NodeKind} {label : Nat → NodeKind}

/-- A planting of a prototype that puts texts behind anchors and attributes into elements. -/
structure Fills (π : Planting NodeKind) (label : Nat → NodeKind) : Prop where
  extended : ∀ i, ∃ attributes, π.label i = (label i).extended attributes
  region : ∀ i bs, π.region i = some bs → label i = .text "" ∧ ∀ b ∈ bs, b.IsText
  closing : ∀ i, π.closing i = .text ""

namespace Fills

theorem isText_of_mem_behind (h : π.Fills label) {i : Nat} {last : Bool} {b : Branch NodeKind}
    (hb : b ∈ π.behind i last) : b.IsText := by
  rw [behind] at hb
  split at hb
  · cases hb
  · next bs hregion =>
    rcases List.mem_append.1 hb with hb | hb
    · exact (h.region i bs hregion).2 b hb
    · split at hb
      · exact ⟨"", by rw [List.mem_singleton.1 hb, h.closing]⟩
      · cases hb

theorem behind_eq_nil (h : π.Fills label) {i : Nat} (hi : label i ≠ .text "") (last : Bool) :
    π.behind i last = [] := by
  rw [behind]
  cases hregion : π.region i with
  | none => rfl
  | some bs => exact absurd (h.region i bs hregion).1 hi

/-- The content of an element that is one text holds no anchor, so nothing is put into it. -/
theorem forest_of_isContent (h : π.Fills label) {mode : Markup.TextMode} {name : String}
    {bs : List (Branch Nat)} (hbs : Html.IsContent mode name (mapAll label bs)) :
    π.forest bs = mapAll label bs := by
  match bs with
  | [] => rfl
  | [.node i cs] =>
    rw [Branch.mapAll_cons, Branch.map_node, Branch.mapAll_nil] at hbs ⊢
    obtain ⟨attributes, hlabel⟩ := h.extended i
    cases hkind : label i with
    | text content =>
      rw [hkind] at hbs hlabel
      cases cs with
      | nil =>
        have hanchor : label i ≠ .text "" := by
          rw [hkind]
          exact fun he => hbs.1 (NodeKind.text.inj he)
        rw [forest_cons, branch_node, hlabel, Branch.label, h.behind_eq_nil hanchor]
        rfl
      | cons c cs => exact hbs.elim
    | _ =>
      rw [hkind] at hbs
      exact hbs.elim
  | _ :: _ :: _ => simp [Html.IsContent] at hbs

/-- Texts are put where they are escaped. -/
theorem guardedAll_behind (h : π.Fills label) {foreign raw : Bool} {b : Branch Nat}
    (hb : guarded foreign raw (b.map label) = true) (last : Bool) :
    guardedAll foreign raw (π.behind b.label last) = true := by
  obtain ⟨i, bs⟩ := b
  by_cases hanchor : label i = .text ""
  · rw [Branch.map_node, hanchor] at hb
    have hraw : raw = false := by simpa [guarded] using hb
    rw [hraw]
    exact Html.guardedAll_of_isText foreign fun c hc => h.isText_of_mem_behind hc
  · rw [Branch.label, h.behind_eq_nil hanchor]
    rfl

/-- Texts have no skeleton. -/
theorem skeletonAll_behind (h : π.Fills label) (i : Nat) (last : Bool) :
    skeletonAll (π.behind i last) = [] :=
  Branch.skeletonAll_of_isText fun _ hb => h.isText_of_mem_behind hb

end Fills

mutual

/-- What is put into a guarded prototype leaves it guarded. -/
theorem guarded_branch {foreign raw : Bool} (h : π.Fills label) (b : Branch Nat)
    (hb : guarded foreign raw (b.map label) = true) : guarded foreign raw (π.branch b) = true := by
  match b with
  | .node i bs =>
    obtain ⟨attributes, hlabel⟩ := h.extended i
    rw [Branch.map_node] at hb
    rw [branch_node, hlabel]
    cases hkind : label i with
    | fragment | document | doctype name =>
      rw [hkind] at hb
      cases hb
    | comment content => rfl
    | text content =>
      rw [hkind] at hb
      exact hb
    | element name own =>
      rw [hkind] at hb
      rw [NodeKind.extended]
      rw [guarded] at hb ⊢
      cases hvoid : Markup.isVoid name with
      | true => rfl
      | false =>
        rw [hvoid, Bool.false_or] at hb
        rw [Bool.false_or]
        split at hb
        · rwa [h.forest_of_isContent (of_decide_eq_true hb)]
        · exact guardedAll_forest h bs hb

theorem guardedAll_forest {foreign raw : Bool} (h : π.Fills label) (bs : List (Branch Nat))
    (hbs : guardedAll foreign raw (mapAll label bs) = true) :
    guardedAll foreign raw (π.forest bs) = true := by
  match bs with
  | [] => rfl
  | b :: bs =>
    rw [Branch.mapAll_cons, guardedAll, Bool.and_eq_true] at hbs
    rw [forest_cons, guardedAll, Bool.and_eq_true, Html.guardedAll_append, Bool.and_eq_true]
    exact ⟨guarded_branch h b hbs.1, h.guardedAll_behind hbs.1 _, guardedAll_forest h bs hbs.2⟩

end

mutual

/-- Texts between the nodes and values of attributes leave the skeleton as it is. -/
theorem skeleton_branch {label' : Nat → NodeKind} (h : π.Fills label)
    (hlabel : ∀ i, (π.label i).erased = (label' i).erased) (b : Branch Nat) :
    (π.branch b).skeleton = (b.map label').skeleton := by
  match b with
  | .node i bs =>
    have hbs := skeletonAll_forest h hlabel bs
    rw [branch_node, Branch.map_node, Branch.skeleton, Branch.skeleton, hbs, hlabel i,
      ← NodeKind.isText_erased (π.label i), hlabel i, NodeKind.isText_erased]

theorem skeletonAll_forest {label' : Nat → NodeKind} (h : π.Fills label)
    (hlabel : ∀ i, (π.label i).erased = (label' i).erased) (bs : List (Branch Nat)) :
    skeletonAll (π.forest bs) = skeletonAll (mapAll label' bs) := by
  match bs with
  | [] => rfl
  | b :: bs =>
    rw [forest_cons, Branch.skeletonAll_cons, Branch.skeletonAll_append, h.skeletonAll_behind,
      List.nil_append, skeleton_branch h hlabel b, skeletonAll_forest h hlabel bs, Branch.mapAll_cons,
      Branch.skeletonAll_cons]

end

mutual

theorem legible_branch (h : π.Fills label) (hlabel : ∀ i, (π.label i).Legible) (b : Branch Nat) :
    (π.branch b).Legible := by
  match b with
  | .node i bs =>
    rw [branch_node]
    exact List.forall_mem_cons.2 ⟨hlabel i, legible_forest h hlabel bs⟩

theorem legible_forest (h : π.Fills label) (hlabel : ∀ i, (π.label i).Legible)
    (bs : List (Branch Nat)) : ∀ kind ∈ labelsOfAll (π.forest bs), kind.Legible := by
  match bs with
  | [] => exact nofun
  | b :: bs =>
    rw [forest_cons, Branch.labelsOfAll_cons, Branch.labelsOfAll_append]
    refine List.forall_mem_append.2 ⟨legible_branch h hlabel b,
      List.forall_mem_append.2 ⟨fun kind hkind => ?_, legible_forest h hlabel bs⟩⟩
    obtain ⟨c, hc, hkind⟩ := Branch.mem_labelsOfAll.1 hkind
    obtain ⟨content, rfl⟩ := h.isText_of_mem_behind hc
    obtain rfl := List.mem_singleton.1 hkind
    trivial

end

end Planting

/-- A value that shows texts between nodes and does not leave its attribute out. -/
def Meaning.IsText (m : Meaning) : Prop :=
  m.value.isAbsent = false ∧ ∃ bs, m.branches = some bs ∧ ∀ b ∈ bs, b.IsText

namespace Slots

variable {slots : List (Option Meaning)}

theorem isText_takeFrom (h : ∀ slot ∈ slots, ∀ m ∈ slot, m.IsText) (index : Nat) :
    (takeFrom .ofNull slots index).1.IsText ∧
      ∀ slot ∈ (takeFrom .ofNull slots index).2, ∀ m ∈ slot, m.IsText := by
  constructor
  · rw [takeFrom]
    cases hslot : slots[index]?.join with
    | none => exact ⟨rfl, _, rfl, List.forall_mem_singleton.2 ⟨"", rfl⟩⟩
    | some m =>
      rw [Option.join_eq_some_iff] at hslot
      exact h _ (List.mem_of_getElem? hslot) m rfl
  · intro slot hslot m hm
    rcases List.mem_or_eq_of_mem_set hslot with hslot | rfl
    · exact h slot hslot m hm
    · cases hm

theorem isText_takeManyFrom (h : ∀ slot ∈ slots, ∀ m ∈ slot, m.IsText) (index n : Nat) :
    (∀ m ∈ (takeManyFrom .ofNull slots index n).1, m.IsText) ∧
      ∀ slot ∈ (takeManyFrom .ofNull slots index n).2, ∀ m ∈ slot, m.IsText := by
  induction n generalizing slots index with
  | zero => exact ⟨nofun, h⟩
  | succ n ih =>
    obtain ⟨hfirst, hrest⟩ := isText_takeFrom h index
    obtain ⟨hothers, hleft⟩ := ih hrest (index + 1)
    exact ⟨List.forall_mem_cons.2 ⟨hfirst, hothers⟩, hleft⟩

end Slots

namespace Template

/-- Values that show texts are shown by every part. -/
theorem exists_shows (cs : List TemplatePart) {slots : List (Option Meaning)}
    (h : ∀ slot ∈ slots, ∀ m ∈ slot, m.IsText) :
    ∃ shown, shows cs slots = some shown ∧ List.Forall₂ TemplatePart.ShowsText cs shown := by
  induction cs generalizing slots with
  | nil => exact ⟨[], rfl, .nil⟩
  | cons c cs ih =>
    rw [shows]
    cases hkind : c.kind with
    | node =>
      obtain ⟨⟨-, bs, hbs, htexts⟩, hrest⟩ := Slots.isText_takeFrom h c.valueIndex
      obtain ⟨shown, hshown, hall⟩ := ih hrest
      simp only [hbs, Option.bind_some, hshown, Option.map_some]
      exact ⟨_, rfl, .cons ⟨hkind, htexts⟩ hall⟩
    | «attribute» name strings =>
      obtain ⟨hvalues, hrest⟩ := Slots.isText_takeManyFrom h c.valueIndex strings.size
      obtain ⟨shown, hshown, hall⟩ := ih hrest
      simp only [hshown, Option.map_some]
      refine ⟨_, rfl, .cons ?_ hall⟩
      have hpresent : ((Slots.takeManyFrom .ofNull slots c.valueIndex strings.size).1.map
          Meaning.value).any Value.isAbsent = false := by
        rw [List.any_map, List.any_eq_false]
        intro m hm
        simp [(hvalues m hm).1]
      rw [TemplatePart.ShowsText, AttributePart.shownBy, hpresent, TemplatePart.erased?,
        TemplatePart.name?, hkind]
      rfl

variable {t : Template} {shown : List (Shown NodeKind)}

/-- A template whose prototype is guarded. -/
def guarded (t : Template) : Bool := guardedAll false false t.content.branches

theorem mapAll_kindAt (t : Template) : mapAll t.kindAt t.pattern = t.content.branches := by
  refine (Branch.mapAll_numberedAll (g := id) fun i kind hkind => ?_).trans (Branch.mapAll_id _)
  rw [kindAt, kinds_eq, Nat.add_comm, List.getElem?_cons_succ, hkind]
  rfl

theorem Legible.kindAt (h : t.Legible) (i : Nat) : (t.kindAt i).Legible := by
  rw [Template.kindAt]
  cases hkind : t.kinds[i]? with
  | none => trivial
  | some kind => exact h.kinds kind (List.mem_of_getElem? hkind)

/-- A template with texts and attributes of its parts is a planting of its prototype. -/
theorem Sound.fills (hsound : t.Sound) (h : List.Forall₂ TemplatePart.ShowsText t.parts shown) :
    (t.planting (fun i => (t.kindAt i).extended (Shown.attributesAt t.parts shown i))
      (fun _ => .text "") shown).Fills t.kindAt where
  extended _ := ⟨_, rfl⟩
  region _ _ hr := regionAt_texts hsound h hr
  closing _ := rfl

/-- The HTML of a guarded template with texts is read as a tree, whose skeleton is built from that of
the template. -/
theorem skeleton_parseFragment_filled (style : Html.Style) (hsound : t.Sound) (ht : t.Legible)
    (hguarded : t.guarded = true) (h : List.Forall₂ TemplatePart.ShowsText t.parts shown) :
    ∃ r, (Markup.parseFragment (Html.writeAll style false (t.filled shown))).outcome = .ok r ∧
      r.content.skeleton =
        [(Markup.Draft.ofTokens .fragment (Html.tokensAll style none t.skeleton)).content] := by
  have hfills := hsound.fills h
  have hfilled : guardedAll false false (t.filled shown) = true := by
    refine Planting.guardedAll_forest hfills t.pattern ?_
    rw [mapAll_kindAt]
    exact hguarded
  have hlegible : ∀ kind ∈ labelsOfAll (t.filled shown), kind.Legible :=
    Planting.legible_forest hfills (fun i => (ht.kindAt i).extended fun a ha =>
      isWord_of_mem_attributesAt ht h ha) t.pattern
  have hskeleton : skeletonAll (t.filled shown) = t.skeleton := by
    refine Planting.skeletonAll_forest hfills (fun i => ?_) t.pattern
    simp only [planting, NodeKind.erased_extended, ← map_erased_attributesAt h, List.map_map]
    rfl
  rw [← hskeleton]
  exact Html.skeleton_parseFragment_writeAll style hfilled hlegible

end Template

end LiveMarkup
