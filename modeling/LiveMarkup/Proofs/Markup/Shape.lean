import LiveMarkup.Proofs.Markup.Kinds
import LiveMarkup.Proofs.Markup.TextContent

set_option autoImplicit false

/-!
The shape of parsed trees. The builder keeps a draft in shape: what the innermost open element
holds and what stands in front of the open elements is in shape at its place, and every open element
knows whether it is in foreign content. A parsed tree is therefore in shape at every node, and a
node is in foreign content exactly by what its ancestors are.
-/

namespace LiveMarkup

open Branch (labelsOfAll mapAll)

/-- No ASCII capital in a name. -/
def Markup.IsLowercase (name : String) : Prop := ∀ c ∈ name.toList, c.isUpper = false

namespace NodeKind

/-- Two texts, which do not stand side by side. -/
def Apart (a b : NodeKind) : Prop := ¬ (a.isText = true ∧ b.isText = true)

/-- What a parsed node is below a root: `top` says that it is right below that of a document, and
`foreign` that it is in foreign content. -/
def Regular (top foreign : Bool) : NodeKind → Prop
  | .fragment | .document => False
  | .doctype _ => top = true
  | .text content => content ≠ ""
  | .comment _ => True
  | .element name attributes =>
    (attributes.map (·.name)).Nodup ∧ (Markup.isForeignRoot name = true → Markup.IsLowercase name) ∧
      (foreign = false → Markup.IsLowercase name ∧ ∀ a ∈ attributes, Markup.IsLowercase a.name)

/-- Whether anything can be below a node: only in elements, and outside foreign content not in those
of a void name. -/
def mayHold (foreign : Bool) : NodeKind → Bool
  | .element name _ => foreign || !Markup.isVoid name
  | _ => false

end NodeKind

namespace Branch

variable {top foreign : Bool} {bs cs : List (Branch NodeKind)}

theorem map_label_mapAll {α β : Type} (f : α → β) (bs : List (Branch α)) :
    (mapAll f bs).map label = (bs.map label).map f := by
  rw [mapAll_eq_map, List.map_map, List.map_map]
  exact List.map_congr_left fun b _ => label_map f b

mutual

/-- A branch all of whose nodes are what they are at their place. -/
def Shaped (top foreign : Bool) : Branch NodeKind → Prop
  | .node kind bs =>
    kind.Regular top (foreign || kind.isForeignRoot) ∧
      (kind.mayHold (foreign || kind.isForeignRoot) = false → bs = []) ∧
      (bs.map label).IsChain NodeKind.Apart ∧ ShapedAll false (foreign || kind.isForeignRoot) bs

def ShapedAll (top foreign : Bool) : List (Branch NodeKind) → Prop
  | [] => True
  | b :: bs => b.Shaped top foreign ∧ ShapedAll top foreign bs

end

@[simp] theorem shapedAll_nil : ShapedAll top foreign [] := trivial

@[simp] theorem shapedAll_cons {b : Branch NodeKind} :
    ShapedAll top foreign (b :: bs) ↔ b.Shaped top foreign ∧ ShapedAll top foreign bs := Iff.rfl

@[simp] theorem shaped_node {kind : NodeKind} : (Branch.node kind bs).Shaped top foreign ↔
    kind.Regular top (foreign || kind.isForeignRoot) ∧
      (kind.mayHold (foreign || kind.isForeignRoot) = false → bs = []) ∧
      (bs.map label).IsChain NodeKind.Apart ∧
      ShapedAll false (foreign || kind.isForeignRoot) bs := Iff.rfl

@[simp] theorem shapedAll_append :
    ShapedAll top foreign (bs ++ cs) ↔ ShapedAll top foreign bs ∧ ShapedAll top foreign cs := by
  induction bs with
  | nil => simp
  | cons b bs ih => simp [ih, and_assoc]

/-- Siblings in shape: each of them is, and no two texts stand side by side. -/
structure Siblings (top foreign : Bool) (bs : List (Branch NodeKind)) : Prop where
  apart : (bs.map label).IsChain NodeKind.Apart
  shaped : ShapedAll top foreign bs

/-- One more sibling, which is a text only behind something else. -/
theorem siblings_snoc {b : Branch NodeKind} : Siblings top foreign (bs ++ [b]) ↔
    Siblings top foreign bs ∧ b.Shaped top foreign ∧
      ∀ last ∈ bs.getLast?, last.label.Apart b.label := by
  have hlast : (∀ x ∈ (bs.map label).getLast?, ∀ y ∈ [b.label].head?, x.Apart y) ↔
      ∀ last ∈ bs.getLast?, last.label.Apart b.label := by
    simp [List.getLast?_map]
  constructor
  · rintro ⟨happart, hshaped⟩
    rw [List.map_append, List.map_singleton, List.isChain_append, hlast] at happart
    rw [shapedAll_append] at hshaped
    exact ⟨⟨happart.1, hshaped.1⟩, hshaped.2.1, happart.2.2⟩
  · rintro ⟨⟨happart, hshaped⟩, hb, hend⟩
    refine ⟨?_, shapedAll_append.2 ⟨hshaped, hb, trivial⟩⟩
    rw [List.map_append, List.map_singleton, List.isChain_append, hlast]
    exact ⟨happart, .singleton _, hend⟩

end Branch

namespace Markup

open Branch (Siblings)

theorem isLowercase_toLower (name : String) : IsLowercase name.toLower := by
  intro c hc
  rw [Text.toList_toLower] at hc
  obtain ⟨d, -, rfl⟩ := List.mem_map.1 hc
  exact Text.isUpper_toLower d

theorem mem_of_mem_distinct {attributes : List Attribute} {a : Attribute}
    (h : a ∈ Builder.distinct attributes) : a ∈ attributes := by
  have hall (seen : List Attribute) (hm : a ∈ attributes.foldl (fun seen a =>
      if seen.any (·.name == a.name) then seen else seen ++ [a]) seen) :
      a ∈ seen ∨ a ∈ attributes := by
    clear h
    induction attributes generalizing seen with
    | nil => exact .inl hm
    | cons b bs ih =>
      rw [List.foldl_cons] at hm
      rcases ih _ hm with hseen | hbs
      · split at hseen
        · exact .inl hseen
        · rw [List.mem_append, List.mem_singleton] at hseen
          exact hseen.imp_right fun hb => List.mem_cons.2 (.inl hb)
      · exact .inr (List.mem_cons_of_mem b hbs)
  exact (hall [] h).resolve_left List.not_mem_nil

/-- The element of a start tag is what it has to be at its place. -/
theorem regular_elementOf (tag : StartTag) (top foreign : Bool)
    (hroot : isForeignRoot tag.name = true → foreign = true) :
    (NodeKind.element (Builder.elementOf tag foreign).1
      (Builder.elementOf tag foreign).2).Regular top foreign := by
  refine ⟨nodup_distinct _, fun hname => ?_, fun hforeign => ?_⟩
  · rw [Draft.Tracks.isForeignRoot_elementOf] at hname
    simp only [Builder.elementOf, hname, Bool.not_true, Bool.and_false, Bool.false_eq_true,
      if_false]
    exact isLowercase_toLower _
  · subst hforeign
    refine ⟨isLowercase_toLower _, fun a ha => ?_⟩
    obtain ⟨written, -, rfl⟩ := List.mem_map.1 (mem_of_mem_distinct ha)
    exact isLowercase_toLower _

/-- Open elements that are in shape, with the siblings in front of each. -/
def Frame.AllShaped (document : Bool) : List Frame → Prop
  | [] => True
  | f :: fs => f.foreign = (inForeign fs || isForeignRoot f.name) ∧ f.kind.Regular false f.foreign ∧
    f.kind.mayHold f.foreign = true ∧ Siblings (document && fs.isEmpty) (inForeign fs) f.left ∧
    AllShaped document fs

namespace Draft

/-- A draft is in shape: what the innermost open element holds, and the open elements. -/
structure Shaped (d : Draft) : Prop where
  inner : Siblings (d.root.isDocument && d.frames.isEmpty) (inForeign d.frames) d.inner
  frames : Frame.AllShaped d.root.isDocument d.frames

variable {d : Draft}

/-- An open element that is closed is one more sibling of those in front of it. -/
theorem siblings_close {document : Bool} {f : Frame} {fs : List Frame}
    {inner : List (Branch NodeKind)} (hf : Frame.AllShaped document (f :: fs))
    (hi : Siblings false f.foreign inner) :
    Siblings (document && fs.isEmpty) (inForeign fs) (f.left ++ [.node f.kind inner]) := by
  obtain ⟨hforeign, hregular, hmay, hleft, -⟩ := hf
  have hroot : f.kind.isForeignRoot = isForeignRoot f.name := rfl
  refine Branch.siblings_snoc.2 ⟨hleft, ?_, fun last _ happart => by cases happart.2⟩
  rw [Branch.shaped_node, hroot, ← hforeign]
  exact ⟨hregular, fun hnot => absurd (hnot.symm.trans hmay) (by simp), hi.apart, hi.shaped⟩

theorem siblings_closeThrough {document : Bool} {name : String} {fs frames : List Frame}
    {inner inner' : List (Branch NodeKind)} (hf : Frame.AllShaped document fs)
    (hi : Siblings (document && fs.isEmpty) (inForeign fs) inner)
    (hc : closeThrough name inner fs = some (inner', frames)) :
    Siblings (document && frames.isEmpty) (inForeign frames) inner' ∧
      Frame.AllShaped document frames := by
  induction fs generalizing inner with
  | nil => cases hc
  | cons f fs ih =>
    have hclosed := siblings_close hf (by simpa [inForeign] using hi)
    rw [closeThrough] at hc
    split at hc
    · obtain ⟨rfl, rfl⟩ := Prod.mk.inj (Option.some.inj hc)
      exact ⟨hclosed, hf.2.2.2.2⟩
    · exact ih hf.2.2.2.2 hclosed hc

namespace Shaped

theorem put (h : d.Shaped) {kind : NodeKind} (hk : (Branch.node kind []).Shaped
    (d.root.isDocument && d.frames.isEmpty) (inForeign d.frames))
    (hlast : ∀ last ∈ d.inner.getLast?, last.label.Apart kind) : (d.put kind).Shaped :=
  ⟨Branch.siblings_snoc.2 ⟨h.inner, hk, hlast⟩, h.frames⟩

/-- A node that is no text can follow anything. -/
theorem put_other (h : d.Shaped) {kind : NodeKind} (htext : kind.isText = false)
    (hk : kind.Regular (d.root.isDocument && d.frames.isEmpty)
      (inForeign d.frames || kind.isForeignRoot)) : (d.put kind).Shaped :=
  h.put ⟨hk, fun _ => rfl, .nil, trivial⟩ fun _ _ happart => by
    rw [htext] at happart
    cases happart.2

/-- A text goes on where a text stands, so that the two do not stand side by side. -/
theorem addText (h : d.Shaped) (content : String) : (d.addText content).Shaped := by
  unfold Draft.addText
  split
  · exact h
  next hempty =>
  have hne : content ≠ "" := fun he => hempty (String.isEmpty_iff.2 he)
  split
  · next before below hlast =>
    obtain ⟨front, hfront⟩ := List.getLast?_eq_some_iff.1 hlast
    have hinner := h.inner
    rw [hfront, Branch.siblings_snoc] at hinner
    obtain ⟨hleft, ⟨-, hbelow, -⟩, happart⟩ := hinner
    obtain rfl : below = [] := hbelow rfl
    rw [hfront, List.dropLast_concat]
    have hlonger : before ++ content ≠ "" := fun he => hne (String.append_eq_empty_iff.1 he).2
    exact ⟨Branch.siblings_snoc.2 ⟨hleft, ⟨hlonger, fun _ => rfl, .nil, trivial⟩, happart⟩,
      h.frames⟩
  · next hlast =>
    refine h.put ⟨hne, fun _ => rfl, .nil, trivial⟩ fun last hmem happart => ?_
    obtain ⟨kind, below⟩ := last
    cases kind with
    | text before => exact hlast before below hmem
    | _ => cases happart.1

theorem startElement (h : d.Shaped) (tag : StartTag) : (d.startElement tag).Shaped := by
  obtain ⟨inside, hinside⟩ : ∃ inside, inside = (d.foreign || isForeignRoot tag.name) := ⟨_, rfl⟩
  have hroot := Draft.Tracks.isForeignRoot_elementOf tag inside
  have hregular (top : Bool) := regular_elementOf tag top inside fun hr => by simp [hinside, hr]
  rw [Draft.startElement, ← hinside]
  obtain ⟨⟨name, attributes⟩, helement⟩ : ∃ e, e = Builder.elementOf tag inside := ⟨_, rfl⟩
  rw [← helement] at hroot hregular ⊢
  simp only at hroot hregular ⊢
  have hforeign : inside = (inForeign d.frames || isForeignRoot name) := hroot ▸ hinside
  by_cases hstays : (if inside = true then tag.selfClosing else isVoid name) = true
  · rw [if_pos hstays]
    refine h.put_other rfl ?_
    rw [show (NodeKind.element name attributes).isForeignRoot = isForeignRoot name from rfl,
      ← hforeign]
    exact hregular _
  · rw [if_neg hstays]
    refine ⟨⟨.nil, trivial⟩, hforeign, hregular false, ?_, h.inner, h.frames⟩
    cases inside with
    | true => rfl
    | false => simpa [NodeKind.mayHold, Frame.kind] using hstays

theorem add (h : d.Shaped) (token : Token) : (d.add token).Shaped := by
  cases token with
  | text content | rawText element content => exact h.addText content
  | comment content => exact h.put_other rfl trivial
  | doctype name =>
    rw [Draft.add]
    split
    · next htop => exact h.put_other rfl (by rwa [NodeKind.Regular, Bool.and_comm])
    · exact h
  | startTag tag => exact h.startElement tag
  | endTag name =>
    rw [Draft.add, Draft.endElement]
    split
    · next hclose =>
      obtain ⟨hinner, hframes⟩ := siblings_closeThrough h.frames h.inner hclose
      exact ⟨hinner, hframes⟩
    · exact h

theorem ofTokens (root : NodeKind) (tokens : List Token) : (Draft.ofTokens root tokens).Shaped := by
  have hall (d : Draft) (h : d.Shaped) : (tokens.foldl Draft.add d).Shaped := by
    induction tokens generalizing d with
    | nil => exact h
    | cons t ts ih => exact ih _ (h.add t)
  exact hall _ ⟨⟨.nil, trivial⟩, trivial⟩

/-- Closing all open elements keeps the shape. -/
theorem branches (h : d.Shaped) : Siblings d.root.isDocument false d.branches := by
  obtain ⟨hinner, hframes⟩ := h
  unfold Draft.branches
  generalize d.inner = inner at hinner
  generalize d.frames = frames at hinner hframes
  induction frames generalizing inner with
  | nil => simpa [inForeign, Branch.enclose] using hinner
  | cons f fs ih =>
    exact ih _ (siblings_close hframes (by simpa [inForeign] using hinner)) hframes.2.2.2.2

end Shaped

end Draft

end Markup

namespace Tree

/-- A node is in foreign content if it, or a node above it, is an element that starts it. -/
inductive InForeign (t : Tree) : NodeId → Prop
  | root {n : NodeId} {name : String} {attributes : List Attribute} :
    t.kind n = .element name attributes → name ∈ Markup.foreignRootNames → InForeign t n
  | inside {n p : NodeId} : t.parent n = some p → InForeign t p → InForeign t n

/-- The shape of a parsed tree at one of its nodes. -/
structure ShapedAt (t : Tree) (root n : NodeId) : Prop where
  text : ∀ content, t.kind n = .text content → content ≠ ""
  /-- No two texts stand side by side. -/
  apart : ((t.children n).map t.kind).IsChain NodeKind.Apart
  distinct : (t.kind n).Distinct
  lowercase : ∀ name attributes, t.kind n = .element name attributes → ¬ t.InForeign n →
    Markup.IsLowercase name ∧ ∀ a ∈ attributes, Markup.IsLowercase a.name
  void : ∀ name attributes, t.kind n = .element name attributes → ¬ t.InForeign n →
    Markup.isVoid name = true → t.children n = []
  foreignRoot : ∀ name attributes, t.kind n = .element name attributes →
    Markup.isForeignRoot name = true → Markup.IsLowercase name
  doctype : ∀ name, t.kind n = .doctype name → t.parent n = some root ∧ t.kind root = .document
  leaf : n ≠ root → (t.kind n).isElement = false → t.children n = []

variable {t : Tree} {root : NodeId}

/-- A branch in shape that an arena holds tells what is in foreign content. -/
theorem inForeign_of_shaped {top foreign : Bool} {up : Option NodeId} {id : NodeId}
    {bs : List (Branch NodeKind)}
    (hs : (Branch.node (t.kind id) bs).Shaped top foreign) (hp : t.parent id = up)
    (hf : foreign = true → ∃ p, up = some p ∧ t.InForeign p)
    (h : (foreign || (t.kind id).isForeignRoot) = true) : t.InForeign id := by
  rcases Bool.or_eq_true_iff.1 h with hforeign | hroot
  · obtain ⟨p, rfl, hin⟩ := hf hforeign
    exact .inside hp hin
  · cases hk : t.kind id with
    | element name attributes =>
      rw [hk] at hs hroot
      have hlower : Markup.IsLowercase name := hs.1.2.1 hroot
      have hsame : name.toLower = name := by
        rw [← String.toList_inj, Text.toList_toLower]
        exact (List.map_congr_left fun c hc => Text.toLower_of_not_isUpper (hlower c hc)).trans
          (List.map_id _)
      refine .root hk (List.contains_iff_mem.1 ?_)
      rw [← hsame]
      exact hroot
    | _ =>
      rw [hk] at hroot
      cases hroot

mutual

theorem Holds.shapedAt {top foreign : Bool} {up : Option NodeId} {b : Branch NodeId}
    (h : t.Holds up b)
    (hs : (b.map t.kind).Shaped top foreign)
    (htop : top = true → up = some root ∧ t.kind root = .document)
    (hf : foreign = true → ∃ p, up = some p ∧ t.InForeign p) :
    ∀ n ∈ b.labels, t.ShapedAt root n := by
  match b with
  | .node id bs =>
    obtain ⟨-, hp, hc, hbs⟩ := h
    rw [Branch.map_node] at hs
    have hin := inForeign_of_shaped hs hp hf
    have hout (hnot : ¬ t.InForeign id) : (foreign || (t.kind id).isForeignRoot) = false :=
      Bool.eq_false_iff.2 fun h => hnot (hin h)
    obtain ⟨hregular, hmay, hapart, hall⟩ := hs
    rw [Branch.map_label_mapAll, ← hc] at hapart
    have hnone : (t.kind id).mayHold (foreign || (t.kind id).isForeignRoot) = false →
        t.children id = [] := fun h => by
      have := hmay h
      rw [Branch.mapAll_eq_map, List.map_eq_nil_iff] at this
      rw [hc, this, List.map_nil]
    rw [Branch.labels_node, List.forall_mem_cons]
    refine ⟨?_, hbs.shapedAt hall nofun fun h => ⟨id, rfl, hin h⟩⟩
    refine ⟨fun content hk => ?_, hapart, ?_, fun name attributes hk hnot => ?_,
      fun name attributes hk hnot hvoid => hnone ?_, fun name attributes hk hroot => ?_,
      fun name hk => ?_, fun _ hk => hnone ?_⟩
    · rw [hk] at hregular
      exact hregular
    · cases hk : t.kind id with
      | element name attributes =>
        rw [hk] at hregular
        exact hregular.1
      | _ => exact List.nodup_nil
    · rw [hout hnot, hk] at hregular
      exact hregular.2.2 rfl
    · rw [hout hnot, hk]
      simp [NodeKind.mayHold, hvoid]
    · rw [hk] at hregular
      exact hregular.2.1 hroot
    · rw [hk] at hregular
      obtain ⟨rfl, hdocument⟩ := htop hregular
      exact ⟨hp, hdocument⟩
    · cases hkind : t.kind id with
      | element name attributes =>
        rw [hkind] at hk
        cases hk
      | _ => rfl

theorem HoldsAll.shapedAt {top foreign : Bool} {up : Option NodeId} {bs : List (Branch NodeId)}
    (h : t.HoldsAll up bs)
    (hs : Branch.ShapedAll top foreign (mapAll t.kind bs))
    (htop : top = true → up = some root ∧ t.kind root = .document)
    (hf : foreign = true → ∃ p, up = some p ∧ t.InForeign p) :
    ∀ n ∈ labelsOfAll bs, t.ShapedAt root n := by
  match bs with
  | [] => exact nofun
  | b :: bs =>
    rw [Branch.mapAll_cons, Branch.shapedAll_cons] at hs
    rw [Branch.labelsOfAll_cons, List.forall_mem_append]
    exact ⟨h.1.shapedAt hs.1 htop hf, h.2.shapedAt hs.2 htop hf⟩

end

end Tree

namespace Markup

theorem siblings_of_parseRooted {kind : NodeKind} {markup : String} {r : Rooted}
    (h : (parseRooted kind markup).outcome = .ok r) :
    ∃ bs, r.Regular bs ∧ r.tree.kind r.root = kind ∧
      Branch.Siblings kind.isDocument false (mapAll r.tree.kind bs) := by
  obtain ⟨bs, hr, hc⟩ := parseRooted_ok h
  rw [hr.content, Draft.content, Draft.root_ofTokens] at hc
  injection hc with hroot hbs
  have hshaped := (Draft.Shaped.ofTokens kind
    ((Lexing.ofMarkup markup).tokens.map Prod.fst)).branches
  rw [Draft.root_ofTokens] at hshaped
  exact ⟨bs, hr, hroot, hbs ▸ hshaped⟩

/-- The tree of a fragment or a document is in shape at every live node. -/
theorem shapedAt_of_parse {markup : String} {r : Rooted}
    (h : (parseFragment markup).outcome = .ok r ∨ (parseDocument markup).outcome = .ok r) :
    ∀ n, r.tree.contains n = true → r.tree.ShapedAt r.root n := by
  obtain ⟨kind, hkind, hparse⟩ : ∃ kind, (kind = .fragment ∨ kind = .document) ∧
      (parseRooted kind markup).outcome = .ok r :=
    h.elim (fun h => ⟨_, .inl rfl, h⟩) fun h => ⟨_, .inr rfl, h⟩
  obtain ⟨bs, hr, hroot, happart, hshaped⟩ := siblings_of_parseRooted hparse
  intro n hn
  have hmem := mem_preorder_of_parseRooted hparse hn
  rw [hr.preorder, List.mem_cons] at hmem
  rcases hmem with rfl | hmem
  · rw [Branch.map_label_mapAll, ← hr.holds.2.2.1] at happart
    refine ⟨?_, happart, ?_, ?_, ?_, ?_, ?_, fun hne => absurd rfl hne⟩
    all_goals
      rw [hroot]
      rcases hkind with rfl | rfl <;> simp [NodeKind.Distinct, NodeKind.attributes]
  · refine hr.holds.2.2.2.shapedAt hshaped (fun htop => ⟨rfl, ?_⟩) nofun n hmem
    rw [hroot]
    rcases hkind with rfl | rfl
    · cases htop
    · rfl

/-- Capitals, an attribute given twice, a drawing that keeps its case, a text that goes on behind an
end tag that closes nothing, and two doctypes. -/
def unruly : String :=
  "<!DOCTYPE html><DIV ID=a id=b>x</i>y<br><SVG viewBox=0><linearGradient ID=c/>&#0;</SVG><!DOCTYPE b>"

theorem unruly_shapedAt :
    (∃ r, (parseFragment unruly).outcome = .ok r ∧
      ∀ n, r.tree.contains n = true → r.tree.ShapedAt r.root n) ∧
    ∃ r, (parseDocument unruly).outcome = .ok r ∧
      ∀ n, r.tree.contains n = true → r.tree.ShapedAt r.root n := by
  have hfragment : (parseFragment unruly).outcome.isOk = true := by decide +kernel
  have hdocument : (parseDocument unruly).outcome.isOk = true := by decide +kernel
  constructor
  · cases h : (parseFragment unruly).outcome with
    | error errors =>
      rw [h] at hfragment
      cases hfragment
    | ok r => exact ⟨r, rfl, shapedAt_of_parse (.inl h)⟩
  · cases h : (parseDocument unruly).outcome with
    | error errors =>
      rw [h] at hdocument
      cases hdocument
    | ok r => exact ⟨r, rfl, shapedAt_of_parse (.inr h)⟩

end Markup

end LiveMarkup
