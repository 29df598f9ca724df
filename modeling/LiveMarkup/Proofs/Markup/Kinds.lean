import LiveMarkup.Proofs.Markup.Building
import LiveMarkup.Proofs.Tree.Dissolving
import LiveMarkup.Proofs.Tree.Leaves
import LiveMarkup.Template.Compile

set_option autoImplicit false

/-!
What can be said of every branch of a parsed tree because it holds of whatever a token makes. In
particular no element has two attributes of one name, and only elements have anything below them.
-/

namespace LiveMarkup

open Branch (labelsOfAll mapAll leavesAll_iff)

/-- The names of the attributes of a node are different. -/
def NodeKind.Distinct (kind : NodeKind) : Prop := (kind.attributes.map (·.name)).Nodup

/-- What every parsed branch keeps: the attributes of an element differ in name, and only elements
have anything below them. -/
structure Branch.Parsed (b : Branch NodeKind) : Prop where
  distinct : ∀ k ∈ b.labels, k.Distinct
  leaves : b.Leaves (!·.isElement)

theorem Branch.Parsed.of_mem {kind : NodeKind} {bs : List (Branch NodeKind)} {b : Branch NodeKind}
    (h : (Branch.node kind bs).Parsed) (hb : b ∈ bs) : b.Parsed :=
  ⟨fun k hk => h.distinct k (List.mem_cons_of_mem _ (mem_labelsOfAll.2 ⟨b, hb, hk⟩)),
    leavesAll_iff.1 h.leaves.2 b hb⟩

namespace Markup

/-- Whatever a token makes, other than text, has a property if what is put below it has. -/
def Token.Makes (P : Branch NodeKind → Prop) : Token → Prop
  | .text _ | .rawText _ _ | .endTag _ => True
  | .comment content => P (.node (.comment content) [])
  | .doctype name => P (.node (.doctype name) [])
  | .startTag tag => ∀ foreign bs, (∀ b ∈ bs, P b) →
    P (.node (.element (Builder.elementOf tag foreign).1 (Builder.elementOf tag foreign).2) bs)

/-- All branches of a draft have a property, those that are still open too. -/
structure Draft.All (P : Branch NodeKind → Prop) (d : Draft) : Prop where
  inner : ∀ b ∈ d.inner, P b
  frames : ∀ f ∈ d.frames, (∀ bs, (∀ b ∈ bs, P b) → P (.node f.kind bs)) ∧ ∀ b ∈ f.left, P b

namespace Draft.All

variable {P : Branch NodeKind → Prop} {d : Draft}

theorem put (h : d.All P) {kind : NodeKind} (hk : P (.node kind [])) : (d.put kind).All P := by
  refine ⟨fun b hb => ?_, h.frames⟩
  rcases List.mem_append.1 hb with hb | hb
  · exact h.inner b hb
  · exact List.mem_singleton.1 hb ▸ hk

theorem addText (ht : ∀ content, P (.node (.text content) []))
    (hmore : ∀ before after below, P (.node (.text before) below) → P (.node (.text after) below))
    (h : d.All P) (content : String) : (d.addText content).All P := by
  unfold Draft.addText
  split
  · exact h
  split
  · rename_i before below hlast
    refine ⟨fun b hb => ?_, h.frames⟩
    obtain ⟨front, hfront⟩ := List.getLast?_eq_some_iff.1 hlast
    have hin := h.inner
    rw [hfront, List.dropLast_concat] at hb
    rw [hfront] at hin
    rcases List.mem_append.1 hb with hb | hb
    · exact hin b (List.mem_append_left _ hb)
    · rw [List.mem_singleton.1 hb]
      exact hmore before _ below (hin _ (by simp))
  · exact h.put (ht content)

theorem startElement (h : d.All P) {tag : StartTag} (hm : (Token.startTag tag).Makes P) :
    (d.startElement tag).All P := by
  have hk := hm (d.foreign || isForeignRoot tag.name)
  unfold Draft.startElement
  simp only
  generalize (if (d.foreign || isForeignRoot tag.name) = true then tag.selfClosing
    else isVoid _) = stays
  cases stays with
  | true => exact h.put (hk [] (by simp))
  | false =>
    refine ⟨by simp, fun f hf => ?_⟩
    rcases List.mem_cons.1 hf with rfl | hf
    · exact ⟨hk, h.inner⟩
    · exact h.frames f hf

theorem closeThrough {name : String} {inner : List (Branch NodeKind)} {frames : List Frame}
    (hi : ∀ b ∈ inner, P b)
    (hf : ∀ f ∈ frames, (∀ bs, (∀ b ∈ bs, P b) → P (.node f.kind bs)) ∧ ∀ b ∈ f.left, P b)
    {inner' : List (Branch NodeKind)} {frames' : List Frame}
    (h : Draft.closeThrough name inner frames = some (inner', frames')) :
    (∀ b ∈ inner', P b) ∧
      ∀ f ∈ frames', (∀ bs, (∀ b ∈ bs, P b) → P (.node f.kind bs)) ∧ ∀ b ∈ f.left, P b := by
  induction frames generalizing inner with
  | nil => cases h
  | cons f fs ih =>
    have hclosed : ∀ b ∈ f.left ++ [.node f.kind inner], P b := by
      obtain ⟨hk, hl⟩ := hf f List.mem_cons_self
      intro b hb
      rcases List.mem_append.1 hb with hb | hb
      · exact hl b hb
      · exact List.mem_singleton.1 hb ▸ hk inner hi
    have hfs := fun g hg => hf g (List.mem_cons_of_mem f hg)
    rw [Draft.closeThrough] at h
    split at h
    · obtain ⟨rfl, rfl⟩ := Prod.mk.inj (Option.some.inj h)
      exact ⟨hclosed, hfs⟩
    · exact ih hclosed hfs h

theorem add (ht : ∀ content, P (.node (.text content) []))
    (hmore : ∀ before after below, P (.node (.text before) below) → P (.node (.text after) below))
    (h : d.All P) {token : Token} (hm : token.Makes P) : (d.add token).All P := by
  cases token with
  | text content | rawText element content => exact h.addText ht hmore content
  | comment content => exact h.put hm
  | doctype name =>
    rw [Draft.add]
    split
    · exact h.put hm
    · exact h
  | startTag tag => exact h.startElement hm
  | endTag name =>
    rw [Draft.add, Draft.endElement]
    split
    · rename_i inner frames hc
      obtain ⟨hi, hf⟩ := closeThrough h.inner h.frames hc
      exact ⟨hi, hf⟩
    · exact h

theorem ofTokens (ht : ∀ content, P (.node (.text content) []))
    (hmore : ∀ before after below, P (.node (.text before) below) → P (.node (.text after) below))
    (root : NodeKind) {tokens : List Token} (hm : ∀ token ∈ tokens, token.Makes P) :
    (Draft.ofTokens root tokens).All P := by
  have hall (d : Draft) (h : d.All P) : (tokens.foldl Draft.add d).All P := by
    induction tokens generalizing d with
    | nil => exact h
    | cons t ts ih =>
      exact ih (fun u hu => hm u (List.mem_cons_of_mem _ hu)) _
        (h.add ht hmore (hm t List.mem_cons_self))
  exact hall _ ⟨by simp, by simp⟩

theorem branches (h : d.All P) : ∀ b ∈ d.branches, P b := by
  obtain ⟨hinner, hframes⟩ := h
  unfold Draft.branches
  generalize d.inner = inner at hinner
  generalize d.frames = frames at hframes
  induction frames generalizing inner with
  | nil => exact hinner
  | cons f fs ih =>
    obtain ⟨hk, hl⟩ := hframes f List.mem_cons_self
    refine ih _ (fun b hb => ?_) fun g hg => hframes g (List.mem_cons_of_mem _ hg)
    rcases List.mem_append.1 hb with hb | hb
    · exact hl b hb
    · exact List.mem_singleton.1 hb ▸ hk inner hinner

end Draft.All

theorem nodup_distinct (attributes : List Attribute) :
    ((Builder.distinct attributes).map (·.name)).Nodup := by
  have hall (seen : List Attribute) (h : (seen.map (·.name)).Nodup) :
      ((attributes.foldl (fun seen a =>
        if seen.any (·.name == a.name) then seen else seen ++ [a]) seen).map (·.name)).Nodup := by
    induction attributes generalizing seen with
    | nil => exact h
    | cons a as ih =>
      rw [List.foldl_cons]
      refine ih _ ?_
      split
      · exact h
      · rename_i hnew
        rw [List.map_append, List.nodup_append]
        refine ⟨h, by simp, ?_⟩
        rintro x hx y hy rfl
        obtain ⟨b, hb, rfl⟩ := List.mem_map.1 hx
        refine hnew (List.any_eq_true.2 ⟨b, hb, ?_⟩)
        simpa using hy
  exact hall [] List.nodup_nil

theorem parsed_text (content : String) : (Branch.node (.text content) []).Parsed :=
  ⟨by simp [NodeKind.Distinct, NodeKind.attributes], by simp⟩

theorem parsed_of_text {before after : String} {below : List (Branch NodeKind)}
    (h : (Branch.node (.text before) below).Parsed) :
    (Branch.node (.text after) below).Parsed := by
  obtain ⟨hd, hl⟩ := h
  obtain rfl : below = [] := hl.1 rfl
  exact parsed_text after

theorem makes_parsed (token : Token) : token.Makes Branch.Parsed := by
  cases token with
  | text | rawText | endTag => trivial
  | comment content | doctype name =>
    exact ⟨by simp [NodeKind.Distinct, NodeKind.attributes], by simp⟩
  | startTag tag =>
    intro foreign bs hbs
    refine ⟨fun k hk => ?_, by simp [NodeKind.isElement], leavesAll_iff.2 fun b hb => (hbs b hb).2⟩
    rcases List.mem_cons.1 hk with rfl | hk
    · exact nodup_distinct _
    · obtain ⟨b, hb, hk⟩ := Branch.mem_labelsOfAll.1 hk
      exact (hbs b hb).1 k hk

namespace Rooted.Regular

variable {r : Rooted}

/-- The first branch that is an `svg` is dissolved. -/
theorem unwrapSvg_first {left kids right : List (Branch NodeId)} {w : NodeId}
    (h : r.Regular (left ++ .node w kids :: right))
    (hw : (r.tree.kind w).elementName? = some "svg")
    (hleft : ∀ n ∈ left.map Branch.label, (r.tree.kind n).elementName? ≠ some "svg") :
    r.unwrapSvg.Regular (left ++ kids ++ right) ∧ r.unwrapSvg.root = r.root ∧
      r.unwrapSvg.tree.kind r.root = r.tree.kind r.root ∧
      (∀ n ∈ labelsOfAll (left ++ kids ++ right), r.unwrapSvg.tree.kind n = r.tree.kind n) ∧
      r.unwrapSvg.tree.contains w = false := by
  have hfind : (r.tree.children r.root).find? (fun n => (r.tree.kind n).elementName? == some "svg") =
      some w := by
    rw [h.holds.2.2.1, List.map_append, List.map_cons, List.find?_append,
      List.find?_eq_none.2 fun n hn => by simpa using hleft n hn]
    simp [Branch.label, hw]
  obtain ⟨hx, hs, hk⟩ := h.stretch.dissolve h.accounted
  have hu : r.unwrapSvg =
      { r with tree := (r.tree.moveChildren w r.root (some w)).remove w } := by
    rw [Rooted.unwrapSvg, hfind]
  rw [hu]
  refine ⟨⟨hx.accounted, hs, hx.parent_owner.trans h.parent_root⟩, rfl, hx.kind_owner, hk, ?_⟩
  -- The node was one of the old ones and is none of the new ones.
  by_contra hlive
  have hnd := h.stretch.nodup_labels
  rcases hx.live w (Bool.not_eq_false _ ▸ hlive) with hnew | ⟨-, hold⟩
  · have hperm : (labelsOfAll (left ++ .node w kids :: right)).Perm
        (w :: labelsOfAll (left ++ kids ++ right)) := by
      simp only [Branch.labelsOfAll_append, Branch.labelsOfAll_cons, Branch.labels_node,
        List.append_assoc, List.cons_append]
      exact List.perm_middle
    exact (List.nodup_cons.1 (hperm.nodup_iff.1 hnd)).1 hnew
  · exact hold (by simp)

/-- The branches are kept, but the first of them that is an `svg` is dissolved. -/
theorem unwrapSvg {bs : List (Branch NodeId)} (h : r.Regular bs) :
    let isSvg (b : Branch NodeKind) : Bool := b.label.elementName? == some "svg"
    ∃ cs, r.unwrapSvg.Regular cs ∧ r.unwrapSvg.tree.kind r.unwrapSvg.root = r.tree.kind r.root ∧
      (mapAll r.unwrapSvg.tree.kind cs = mapAll r.tree.kind bs ∧
          (∀ b ∈ mapAll r.tree.kind bs, isSvg b = false) ∨
        ∃ left w kids right, mapAll r.tree.kind bs = left ++ .node w kids :: right ∧
          isSvg (.node w kids) = true ∧ (∀ b ∈ left, isSvg b = false) ∧
          mapAll r.unwrapSvg.tree.kind cs = left ++ kids ++ right) := by
  intro isSvg
  have hc : r.tree.children r.root = bs.map Branch.label := h.holds.2.2.1
  have hlabel {bs : List (Branch NodeId)} {b : Branch NodeKind} (hb : b ∈ mapAll r.tree.kind bs) :
      ∃ n ∈ bs.map Branch.label, b.label = r.tree.kind n := by
    rw [Branch.mapAll_eq_map] at hb
    obtain ⟨b', hb', rfl⟩ := List.mem_map.1 hb
    exact ⟨b'.label, List.mem_map_of_mem hb', Branch.label_map _ b'⟩
  cases hw : (r.tree.children r.root).find? fun n => (r.tree.kind n).elementName? == some "svg" with
  | some w =>
    obtain ⟨hsvg, before, after, hsplit, hfirst⟩ := List.find?_eq_some_iff_append.1 hw
    obtain ⟨left, more, rfl, hleft, hmore⟩ := List.map_eq_append_iff.1 (hc.symm.trans hsplit)
    obtain ⟨⟨w, kids⟩, right, rfl, rfl, -⟩ := List.map_eq_cons_iff.1 hmore
    obtain ⟨hr, hroot, hkroot, hk, -⟩ := h.unwrapSvg_first (eq_of_beq hsvg) fun n hn => by
      simpa using hfirst n (hleft ▸ hn)
    refine ⟨left ++ kids ++ right, hr, hroot ▸ hkroot, .inr ⟨mapAll r.tree.kind left,
      r.tree.kind w, mapAll r.tree.kind kids, mapAll r.tree.kind right, by simp, hsvg,
      fun b hb => ?_, ?_⟩⟩
    · obtain ⟨n, hn, hb⟩ := hlabel hb
      simpa [isSvg, hb] using hfirst n (hleft ▸ hn)
    · exact (Branch.mapAll_congr hk).trans (by simp)
  | none =>
    have hu : r.unwrapSvg = r := by rw [Rooted.unwrapSvg, hw]
    rw [hu]
    refine ⟨bs, h, rfl, .inl ⟨rfl, fun b hb => ?_⟩⟩
    obtain ⟨n, hn, hb⟩ := hlabel hb
    simpa [isSvg, hb] using List.find?_eq_none.1 hw n (hc ▸ hn)

end Rooted.Regular

theorem parseRooted_parsed {kind : NodeKind} {markup : String} {r : Rooted}
    (h : (parseRooted kind markup).outcome = .ok r) :
    ∃ bs, r.Regular bs ∧ r.tree.kind r.root = kind ∧
      ∀ b ∈ mapAll r.tree.kind bs, b.Parsed := by
  obtain ⟨bs, hr, hc⟩ := parseRooted_ok h
  rw [hr.content, Draft.content, Draft.root_ofTokens] at hc
  injection hc with hroot hbs
  refine ⟨bs, hr, hroot, ?_⟩
  rw [hbs]
  exact (Draft.All.ofTokens parsed_text (fun _ _ _ => parsed_of_text) kind
    fun token _ => makes_parsed token).branches

/-- A parsed template is a container of parsed branches. -/
theorem parse_ok {kind : TemplateKind} {detectDocuments : Bool} {markup : String} {r : Rooted}
    (h : (Template.parse kind detectDocuments markup).outcome = .ok r) :
    ∃ bs, r.Regular bs ∧
      (r.tree.kind r.root = .fragment ∨ r.tree.kind r.root = .document) ∧
      ∀ b ∈ mapAll r.tree.kind bs, b.Parsed := by
  cases kind with
  | html =>
    simp only [Template.parse] at h
    split at h
    · obtain ⟨bs, hr, hk, hp⟩ := parseRooted_parsed h
      exact ⟨bs, hr, .inr hk, hp⟩
    · obtain ⟨bs, hr, hk, hp⟩ := parseRooted_parsed h
      exact ⟨bs, hr, .inl hk, hp⟩
  | svg =>
    simp only [Template.parse, parseSvgFragment] at h
    cases hp : (parseFragment (svgOpen ++ markup ++ svgClose)).outcome with
    | error errors => simp [hp, Except.map, Except.mapError] at h
    | ok wrapped =>
      rw [hp] at h
      obtain rfl : wrapped.unwrapSvg = r := by simpa [Except.map, Except.mapError] using h
      obtain ⟨bs, hr, hk, hd⟩ := parseRooted_parsed hp
      obtain ⟨cs, hr', hk', hcs⟩ := hr.unwrapSvg
      refine ⟨cs, hr', .inl (hk'.trans hk), ?_⟩
      rcases hcs with ⟨hcs, -⟩ | ⟨left, w, kids, right, hbs, -, -, hcs⟩
      · exact hcs ▸ hd
      · rw [hbs] at hd
        rw [hcs]
        intro b hb
        simp only [List.mem_append, or_assoc] at hb
        rcases hb with hb | hb | hb
        · exact hd b (by simp [hb])
        · exact (hd (.node w kids) (by simp)).of_mem hb
        · exact hd b (by simp [hb])

end Markup

end LiveMarkup
