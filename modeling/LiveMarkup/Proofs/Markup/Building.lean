import LiveMarkup.Proofs.Markup.Draft
import LiveMarkup.Proofs.Tree.Planting
import LiveMarkup.Proofs.Tree.Reading

set_option autoImplicit false

/-!
The tree builder follows the draft: after any tokens its arena holds the branches of the draft, and
its open elements are those of the draft. Parsing markup therefore gives an arena that holds one
branch, whose content is what the draft says. On the way every token makes at most one node, and it
comes behind all others in pre-order, since an open element is the last node of its level.
-/

namespace LiveMarkup

open Branch (labelsOfAll enclose)
open LiveMarkup.Tree (Stretch Exchange Grows)

/-- The place inside all the nodes of a path. -/
def Place.ofPath {α : Type} (place : Place α) : List (α × List (Branch α)) → Place α
  | [] => place
  | (a, left) :: path => Place.ofPath (.inside left a place []) path

theorem Place.fill_ofPath {α : Type} (f : List (Branch α)) (place : Place α)
    (path : List (α × List (Branch α))) :
    (Place.ofPath place path).fill f = enclose (place.fill f) path := by
  induction path generalizing place with
  | nil => rfl
  | cons step path ih =>
    obtain ⟨a, left⟩ := step
    rw [Place.ofPath, ih, Place.fill, enclose]

theorem Place.ofPath_inside {α : Type} (left right : List (Branch α)) (a p : α) (inner : Place α)
    (path : List (α × List (Branch α))) :
    (Place.ofPath (.inside left a inner right) path).owner p = inner.owner a ∧
      (Place.ofPath (.inside left a inner right) path).before [] = inner.before [] ∧
      (Place.ofPath (.inside left a inner right) path).after [] = inner.after [] := by
  induction path generalizing left right a inner with
  | nil => exact ⟨rfl, rfl, rfl⟩
  | cons step path ih => exact ih step.2 [] step.1 (.inside left a inner right)

theorem Place.ofPath_here {α : Type} (p : α) (path : List (α × List (Branch α))) :
    (Place.ofPath (.here [] []) path).owner p = (path.head?.map Prod.fst).getD p ∧
      (Place.ofPath (.here [] []) path).before [] = [] ∧
      (Place.ofPath (.here [] []) path).after [] = [] := by
  cases path with
  | nil => exact ⟨rfl, rfl, rfl⟩
  | cons step path => exact Place.ofPath_inside step.2 [] step.1 p (.here [] []) path

theorem Branch.mapAll_enclose {α β : Type} (f : α → β) (inner : List (Branch α))
    (path : List (α × List (Branch α))) : Branch.mapAll f (enclose inner path) =
      enclose (Branch.mapAll f inner) (path.map fun s => (f s.1, Branch.mapAll f s.2)) := by
  induction path generalizing inner with
  | nil => rfl
  | cons s path ih =>
    rw [enclose, ih, List.map_cons, enclose]
    simp

theorem Branch.labelsOfAll_enclose_append {α : Type} (inner more : List (Branch α))
    (path : List (α × List (Branch α))) : labelsOfAll (enclose (inner ++ more) path) =
      labelsOfAll (enclose inner path) ++ labelsOfAll more := by
  induction path generalizing inner more with
  | nil => simp [enclose]
  | cons step path ih =>
    obtain ⟨a, left⟩ := step
    have hnode (kids : List (Branch α)) :
        labelsOfAll (enclose (left ++ [.node a kids]) path) =
          labelsOfAll (enclose left path) ++ a :: labelsOfAll kids := by
      rw [ih]
      simp
    rw [enclose, enclose, hnode, hnode]
    simp

/-- A kind stays what it is, or it is a text that gets longer. -/
inductive NodeKind.GoesOn : NodeKind → NodeKind → Prop
  | same {kind : NodeKind} : GoesOn kind kind
  | text {before after : String} : GoesOn (.text before) (.text (before ++ after))

namespace NodeKind.GoesOn

variable {kind kind' : NodeKind}

theorem isElement_eq (h : kind.GoesOn kind') : kind'.isElement = kind.isElement := by
  cases h <;> rfl

theorem eq_of_isElement (h : kind.GoesOn kind') (he : kind.isElement = true) : kind' = kind := by
  cases h with
  | same => rfl
  | text => cases he

end NodeKind.GoesOn

namespace Markup

/-- What a node is when a token makes it. -/
inductive Token.Yields : Token → NodeKind → Prop
  | text {content : String} : Yields (.text content) (.text content)
  | rawText {element content : String} : Yields (.rawText element content) (.text content)
  | comment {content : String} : Yields (.comment content) (.comment content)
  | doctype {name : String} : Yields (.doctype name) (.doctype name)
  | startTag (tag : StartTag) (foreign : Bool) : Yields (.startTag tag)
      (.element (Builder.elementOf tag foreign).1 (Builder.elementOf tag foreign).2)

/-- What a token does to a tree whose nodes are listed in pre-order: it makes no node, or one that
comes behind all others. A node that there is stays what it is, but a text may get longer. -/
inductive Token.Puts (token : Token) (t t' : Tree) (nodes : List NodeId) : List NodeId → Prop
  | nothing : (∀ tag, token ≠ .startTag tag) → (∀ n, t'.contains n = t.contains n) →
    (∀ n, (t.kind n).GoesOn (t'.kind n)) → Puts token t t' nodes nodes
  | node {id : NodeId} : token.Yields (t'.kind id) → t.contains id = false →
    (∀ n, t'.contains n = true ↔ t.contains n = true ∨ n = id) →
    (∀ n, t.contains n = true → t'.kind n = t.kind n) → Puts token t t' nodes (nodes ++ [id])

theorem Token.Puts.nothing_of_same {token : Token} (h : ∀ tag, token ≠ .startTag tag) (t : Tree)
    (nodes : List NodeId) : token.Puts t t nodes nodes :=
  .nothing h (fun _ => rfl) fun _ => .same

/-- The arena of a builder holds a draft: `inner` and `path` are the nodes of its branches. -/
structure Draws (b : Builder) (d : Draft) (inner : List (Branch NodeId))
    (path : List (NodeId × List (Branch NodeId))) : Prop where
  accounted : b.tree.Accounted
  stretch : Stretch b.tree b.root [] (enclose inner path) []
  parent_root : b.tree.parent b.root = none
  root_kind : b.tree.kind b.root = d.root
  opened : b.opened.map (·.node) = path.map Prod.fst
  names : b.opened.map (fun o => (o.name, o.foreign)) =
    d.frames.map fun f => (f.name, f.foreign)
  inner_kinds : Branch.mapAll b.tree.kind inner = d.inner
  path_kinds : path.map (fun s => (b.tree.kind s.1, Branch.mapAll b.tree.kind s.2)) =
    d.frames.map fun f => (f.kind, f.left)

variable {b b' : Builder} {d : Draft} {inner inner' : List (Branch NodeId)}
  {path : List (NodeId × List (Branch NodeId))}

namespace Draws

theorem parent_eq (h : Draws b d inner path) : b.parent = (path.head?.map Prod.fst).getD b.root := by
  have hm : b.opened.head?.map (·.node) = path.head?.map Prod.fst := by
    rw [← List.head?_map, h.opened, List.head?_map]
  rw [Builder.parent, hm]

theorem foreign_eq (h : Draws b d inner path) : b.foreign = d.foreign := by
  have hm : b.opened.head?.map (·.foreign) = d.frames.head?.map Frame.foreign := by
    have hn := congrArg (List.map Prod.snd) h.names
    simp only [List.map_map, Function.comp_def] at hn
    rw [← List.head?_map, hn, List.head?_map]
  rw [Builder.foreign, hm, Draft.foreign]

theorem place (h : Draws b d inner path) : Stretch b.tree b.parent [] inner [] := by
  have hs := h.stretch
  have hfill := Place.fill_ofPath inner (.here [] []) path
  rw [show (Place.here [] []).fill inner = inner by simp [Place.fill]] at hfill
  rw [← hfill] at hs
  obtain ⟨ho, hb, ha⟩ := Place.ofPath_here b.root path
  have hin := hs.inner
  rwa [ho, hb, ha, ← h.parent_eq] at hin

variable (b') in
/-- What the innermost open element holds is exchanged. -/
theorem exchange (h : Draws b d inner path)
    (hx : Exchange b.tree b'.tree b.parent (labelsOfAll inner) (labelsOfAll inner'))
    (hs : Stretch b'.tree b.parent [] inner' []) (hroot : b'.root = b.root)
    (hopened : b'.opened = b.opened)
    (hpath : ∀ s ∈ path, ∀ n ∈ s.1 :: labelsOfAll s.2, b'.tree.kind n = b.tree.kind n) :
    Draws b' { d with inner := Branch.mapAll b'.tree.kind inner' } inner' path := by
  have hstretch := h.stretch
  have hfill (f : List (Branch NodeId)) :
      (Place.ofPath (.here [] []) path).fill f = enclose f path := by
    rw [Place.fill_ofPath]
    simp [Place.fill]
  obtain ⟨ho, hbef, haft⟩ := Place.ofPath_here b.root path
  rw [h.parent_eq, ← ho] at hx hs
  rw [← hfill] at hstretch
  obtain ⟨hout, hs'⟩ := hstretch.outer hx (by rwa [hbef, haft])
  rw [hfill] at hs'
  refine ⟨hx.accounted, hroot ▸ hs', ?_, ?_, ?_, ?_, rfl, ?_⟩
  · rw [hroot, hout.parent_owner, h.parent_root]
  · rw [hroot, hout.kind_owner, h.root_kind]
  · rw [hopened, h.opened]
  · rw [hopened, h.names]
  · rw [← h.path_kinds]
    refine List.map_congr_left fun s hm => ?_
    rw [hpath s hm s.1 List.mem_cons_self,
      Branch.mapAll_congr fun n hn => hpath s hm n (List.mem_cons_of_mem _ hn)]

end Draws

theorem mem_enclose {α : Type} {inner : List (Branch α)} {path : List (α × List (Branch α))} {a : α} :
    a ∈ labelsOfAll (enclose inner path) ↔
      a ∈ labelsOfAll inner ∨ ∃ s ∈ path, a ∈ s.1 :: labelsOfAll s.2 := by
  induction path generalizing inner with
  | nil => simp [enclose]
  | cons s path ih =>
    obtain ⟨x, left⟩ := s
    rw [enclose, ih]
    simp only [Branch.labelsOfAll_append, Branch.labelsOfAll_cons, Branch.labels_node,
      Branch.labelsOfAll_nil, List.append_nil, List.mem_append, List.mem_cons,
      exists_eq_or_imp]
    generalize (∃ s, s ∈ path ∧ (a = s.1 ∨ a ∈ labelsOfAll s.2)) = outside
    tauto

theorem not_mem_inner_of_nodup {α : Type} {inner : List (Branch α)}
    {path : List (α × List (Branch α))} (hn : (labelsOfAll (enclose inner path)).Nodup)
    {s : α × List (Branch α)} (hs : s ∈ path) {a : α} (ha : a ∈ s.1 :: labelsOfAll s.2) :
    a ∉ labelsOfAll inner := by
  have hfill := Place.fill_ofPath inner (.here [] []) path
  have hempty := Place.fill_ofPath [] (.here [] []) path
  simp only [Place.fill, List.nil_append, List.append_nil] at hfill hempty
  rw [← hfill, (Place.labels_fill _ _).nodup_iff, hempty] at hn
  exact fun hm => (List.nodup_append.1 hn).2.2 a (mem_enclose.2 (.inr ⟨s, hs, ha⟩)) a hm rfl

namespace Draws

theorem contains_path (h : Draws b d inner path) {s : NodeId × List (Branch NodeId)}
    (hs : s ∈ path) {n : NodeId} (hn : n ∈ s.1 :: labelsOfAll s.2) : b.tree.contains n = true :=
  h.stretch.holds.contains (mem_enclose.2 (.inr ⟨s, hs, hn⟩))

theorem appendNode {token : Token} {kind : NodeKind} (h : Draws b d inner path)
    (hy : token.Yields kind) :
    Draws (b.appendNode kind).1 (d.put kind) (inner ++ [.node (b.appendNode kind).2 []]) path ∧
      token.Puts b.tree (b.appendNode kind).1.tree (labelsOfAll (enclose inner path))
        (labelsOfAll (enclose (inner ++ [.node (b.appendNode kind).2 []]) path)) := by
  have hg := h.accounted.grows_create kind
  have hkind := h.accounted.kind_create kind
  obtain ⟨u, id, hu⟩ : ∃ u id, b.tree.create kind = (u, id) := ⟨_, _, rfl⟩
  rw [hu] at hg hkind
  have hb : b.appendNode kind = ({ b with tree := u.append b.parent id }, id) := by
    rw [Builder.appendNode, hu]
  obtain ⟨hx, hs, hk⟩ := h.place.append hg
  rw [hb]
  have hsame {n : NodeId} (hn : b.tree.contains n = true) :
      (u.append b.parent id).kind n = b.tree.kind n :=
    (hk n).trans (Tree.kind_of_core (hg.core n hn))
  have hd := h.exchange { b with tree := u.append b.parent id } hx hs rfl rfl
    fun s hm n hn => hsame (h.contains_path hm hn)
  have hself : (u.append b.parent id).kind id = kind := (hk id).trans hkind
  have hin : Branch.mapAll (u.append b.parent id).kind (inner ++ [.node id []]) =
      d.inner ++ [.node kind []] := by
    rw [Branch.mapAll_append, Branch.mapAll_congr fun n hn => hsame (h.place.holds.contains hn),
      h.inner_kinds]
    simp [hself]
  rw [Draft.put, ← hin]
  refine ⟨hd, ?_⟩
  have hlabels : labelsOfAll (inner ++ [.node id []]) = labelsOfAll inner ++ [id] := by simp
  have hlive (n : NodeId) : (u.append b.parent id).contains n = true ↔
      b.tree.contains n = true ∨ n = id := by
    constructor
    · intro hl
      rcases hx.live n hl with hn | ⟨hl, -⟩
      · rw [hlabels, List.mem_append, List.mem_singleton] at hn
        exact hn.imp_left h.place.holds.contains
      · exact .inl hl
    · rintro (hl | rfl)
      · by_cases hn : n ∈ labelsOfAll inner
        · exact hs.holds.contains (hlabels ▸ List.mem_append_left _ hn)
        · exact hx.contains_other hl hn
      · exact hs.holds.contains (by simp)
  rw [Branch.labelsOfAll_enclose_append]
  exact .node (hself ▸ hy) (hg.fresh id (by simp)) hlive fun n hl => hsame hl

variable (inner path) in
/-- A token has changed a builder that held some branches, and the draft is changed alike. -/
def Takes (token : Token) (b b' : Builder) (d : Draft) : Prop :=
  ∃ inner' path', Draws b' d inner' path' ∧ token.Puts b.tree b'.tree
    (labelsOfAll (enclose inner path)) (labelsOfAll (enclose inner' path'))

theorem appendText {token : Token} {content : String} (h : Draws b d inner path)
    (hy : token.Yields (.text content)) (htag : ∀ tag, token ≠ .startTag tag) :
    Takes inner path token b (b.appendText content) (d.addText content) := by
  unfold Builder.appendText Draft.addText
  split
  · exact ⟨inner, path, h, .nothing_of_same htag _ _⟩
  have hchildren : b.tree.children b.parent = inner.map Branch.label := by
    simpa using h.place.children
  have hlast : d.inner.getLast? = inner.getLast?.map (Branch.map b.tree.kind) := by
    rw [← h.inner_kinds, Branch.mapAll_eq_map, List.getLast?_map]
  rw [hchildren, List.getLast?_map, hlast]
  rcases List.eq_nil_or_concat inner with hnil | ⟨front, last, hcons⟩
  · subst hnil
    exact ⟨_, _, h.appendNode hy⟩
  rw [List.concat_eq_append] at hcons
  have hl : inner.getLast? = some last := by simp [hcons]
  rw [hl]
  obtain ⟨id, below⟩ := last
  simp only [Option.map_some, Branch.label, Branch.map_node, Option.bind_some]
  cases hk : b.tree.kind id with
  | text before =>
    -- The text before is continued in place.
    have hmem : id ∈ labelsOfAll inner := by simp [hcons]
    have hlive := h.place.holds.contains hmem
    have he := h.accounted.edits_setKind hlive (.text (before ++ content))
    have hset : (b.tree.setText id (before ++ content)).1 =
        b.tree.setKind id (.text (before ++ content)) := by
      simp only [Tree.setText, hk]
    obtain ⟨hx, hs⟩ := h.place.edit he hmem
    have hnd := h.place.nodup_labels
    have hnroot := (List.nodup_append.1 (List.nodup_cons.1 h.stretch.nodup).2).2.1
    have hpath : ∀ s ∈ path, ∀ n ∈ s.1 :: labelsOfAll s.2, n ≠ id := by
      rintro s hm n hn rfl
      exact not_mem_inner_of_nodup hnroot hm hn hmem
    rw [hcons, Branch.labelsOfAll_append] at hnd
    obtain ⟨-, hnb, hdis⟩ := List.nodup_append.1 hnd
    have hbelow : id ∉ labelsOfAll below := by
      rw [Branch.labelsOfAll_cons, Branch.labels_node, List.cons_append] at hnb
      exact fun hm => (List.nodup_cons.1 hnb).1 (by simp [hm])
    have hd := h.exchange { b with tree := b.tree.setKind id (.text (before ++ content)) }
      hx hs rfl rfl fun s hm n hn => he.kind_other (hpath s hm n hn)
    have hputs : token.Puts b.tree (b.tree.setKind id (.text (before ++ content)))
        (labelsOfAll (enclose inner path)) (labelsOfAll (enclose inner path)) := by
      refine .nothing htag (fun n => (he.sameLinks n).1) fun n => ?_
      by_cases hn : n = id
      · rw [hn, he.kind_self, hk]
        exact .text
      · rw [he.kind_other hn]
        exact .same
    refine ⟨inner, path, ?_⟩
    simp only [NodeKind.text?, hset]
    have hin : Branch.mapAll (b.tree.setKind id (.text (before ++ content))).kind inner =
        d.inner.dropLast ++ [.node (.text (before ++ content))
          (Branch.mapAll b.tree.kind below)] := by
      rw [← h.inner_kinds, hcons, Branch.mapAll_append, Branch.mapAll_append]
      simp only [Branch.mapAll_cons, Branch.map_node, Branch.mapAll_nil, List.dropLast_concat,
        he.kind_self]
      congr 1
      · refine Branch.mapAll_congr fun n hn => he.kind_other ?_
        rintro rfl
        exact hdis n hn n (by simp) rfl
      · congr 2
        exact Branch.mapAll_congr fun n hn => he.kind_other fun he => hbelow (he ▸ hn)
    rw [← hin]
    exact ⟨hd, hputs⟩
  | _ => exact ⟨_, _, h.appendNode hy⟩

theorem startElement (h : Draws b d inner path) (tag : StartTag) :
    Takes inner path (.startTag tag) b (b.startElement tag) (d.startElement tag) := by
  unfold Builder.startElement Draft.startElement
  rw [h.foreign_eq]
  obtain ⟨name, attributes, he⟩ : ∃ name attributes,
      Builder.elementOf tag (d.foreign || isForeignRoot tag.name) = (name, attributes) :=
    ⟨_, _, rfl⟩
  have hy := Token.Yields.startTag tag (d.foreign || isForeignRoot tag.name)
  rw [he] at hy
  obtain ⟨hd, hputs⟩ := h.appendNode hy
  simp only [he]
  generalize (if (d.foreign || isForeignRoot tag.name) = true then tag.selfClosing
    else isVoid name) = stays
  cases stays with
  | true => exact ⟨_, _, hd, hputs⟩
  | false =>
    -- The new element is the innermost one, and what stood before it is kept with it.
    simp only [Bool.false_eq_true, if_false]
    obtain ⟨⟨u, root, opened, events⟩, id, hb⟩ : ∃ b' id,
        b.appendNode (.element name attributes) = (b', id) := ⟨_, _, rfl⟩
    have hopened : opened = b.opened := (congrArg (fun r => r.1.opened) hb).symm
    rw [hb] at hd hputs ⊢
    have hk := hd.inner_kinds
    simp only [Branch.mapAll_append, Branch.mapAll_cons, Branch.map_node, Branch.mapAll_nil,
      Draft.put] at hk
    obtain ⟨hleft, hself⟩ := List.append_inj' hk rfl
    simp only [List.cons.injEq, Branch.node.injEq, and_true] at hself
    refine ⟨[], (id, inner) :: path, ⟨hd.accounted, hd.stretch, hd.parent_root, hd.root_kind,
      ?_, ?_, rfl, ?_⟩, hputs⟩
    · simp only [List.map_cons, hd.opened]
    · simp only [List.map_cons, hd.names, Draft.put]
    · simp only [List.map_cons, hd.path_kinds, Draft.put, hleft, hself]
      rfl

/-- Closing leaves the arena as it is. -/
theorem closeThrough (h : Draws b d inner path) (name : String) :
    ((b.opened.dropWhile fun e => !Text.sameName e.name name) = [] ∧
        Draft.closeThrough name d.inner d.frames = none) ∨
      ∃ first opened inner' frames inner'' path',
        (b.opened.dropWhile fun e => !Text.sameName e.name name) = first :: opened ∧
        Draft.closeThrough name d.inner d.frames = some (inner', frames) ∧
        Draws { b with opened } { d with inner := inner', frames } inner'' path' ∧
        enclose inner'' path' = enclose inner path := by
  obtain ⟨frames, hf⟩ : ∃ frames, frames = d.frames := ⟨_, rfl⟩
  rw [← hf]
  induction frames generalizing b d inner path with
  | nil =>
    have hn := h.names
    rw [← hf, List.map_nil, List.map_eq_nil_iff] at hn
    exact .inl ⟨by rw [hn]; rfl, rfl⟩
  | cons f fs ih =>
    obtain ⟨hacc, hst, hup, hdoc, hop, hnames, hin, hpk⟩ := h
    rw [← hf] at hnames hpk
    obtain ⟨first, opened, hb⟩ : ∃ first opened, b.opened = first :: opened := by
      cases hb : b.opened with
      | nil => simp [hb] at hnames
      | cons first opened => exact ⟨first, opened, rfl⟩
    obtain ⟨⟨id, left⟩, path', hp⟩ : ∃ step path', path = step :: path' := by
      cases path with
      | nil => simp at hpk
      | cons step path' => exact ⟨step, path', rfl⟩
    subst hp
    rw [hb] at hop hnames
    simp only [List.map_cons, List.cons.injEq, Prod.mk.injEq] at hop hnames hpk
    obtain ⟨⟨hname, -⟩, hnames⟩ := hnames
    obtain ⟨⟨hkind, hleft⟩, hpk⟩ := hpk
    have hclosed : Branch.mapAll b.tree.kind (left ++ [.node id inner]) =
        f.left ++ [.node f.kind d.inner] := by
      simp [hkind, hleft, hin]
    have hd : Draws { b with opened }
        { d with inner := f.left ++ [.node f.kind d.inner], frames := fs }
        (left ++ [.node id inner]) path' :=
      ⟨hacc, hst, hup, hdoc, hop.2, hnames, hclosed, hpk⟩
    rw [hb, List.dropWhile_cons, Draft.closeThrough, hname]
    by_cases hs : Text.sameName f.name name = true
    · simp only [hs, Bool.not_true, Bool.false_eq_true, if_false, if_true]
      exact .inr ⟨_, _, _, _, _, _, rfl, rfl, hd, rfl⟩
    · simp only [hs, Bool.not_false, if_true]
      exact ih hd rfl

theorem report (h : Draws b d inner path) (e : Event) : Draws (b.report e) d inner path :=
  ⟨h.accounted, h.stretch, h.parent_root, h.root_kind, h.opened, h.names, h.inner_kinds,
    h.path_kinds⟩

theorem endElement (h : Draws b d inner path) (name : String) :
    Takes inner path (.endTag name) b (b.endElement name) (d.endElement name) := by
  unfold Builder.endElement Draft.endElement
  rcases h.closeThrough name with ⟨hb, hd⟩ | ⟨_, _, _, _, _, _, hb, hd, hdraws, hsame⟩
  · rw [hb, hd]
    exact ⟨_, _, h.report _, .nothing_of_same (by simp) _ _⟩
  · rw [hb, hd]
    exact ⟨_, _, hdraws, hsame ▸ .nothing_of_same (by simp) _ _⟩

/-- The draft takes a token as the builder does. -/
theorem add (h : Draws b d inner path) (token : Token) :
    Takes inner path token b (b.add token) (d.add token) := by
  cases token with
  | text content => exact h.appendText .text (by simp)
  | rawText element content => exact h.appendText .rawText (by simp)
  | comment content => exact ⟨_, _, h.appendNode .comment⟩
  | doctype name =>
    have hempty : b.opened.isEmpty = d.frames.isEmpty := by
      have hn := congrArg List.isEmpty h.names
      simpa using hn
    rw [Builder.add, Draft.add, hempty, h.root_kind]
    split
    · exact ⟨_, _, h.appendNode .doctype⟩
    · exact ⟨_, _, h.report _, .nothing_of_same (by simp) _ _⟩
  | startTag tag => exact h.startElement tag
  | endTag name => exact h.endElement name

theorem addAll (h : Draws b d inner path) (tokens : List (Token × Span)) :
    ∃ inner' path', Draws (tokens.foldl (fun b t => b.add t.1) b)
      ((tokens.map Prod.fst).foldl Draft.add d) inner' path' := by
  induction tokens generalizing b d inner path with
  | nil => exact ⟨_, _, h⟩
  | cons t ts ih =>
    obtain ⟨_, _, h', -⟩ := h.add t.1
    exact ih h'

end Draws

/-- An arena that holds one branch, at the root. -/
structure Rooted.Regular (r : Rooted) (bs : List (Branch NodeId)) : Prop where
  accounted : r.tree.Accounted
  stretch : Stretch r.tree r.root [] bs []
  parent_root : r.tree.parent r.root = none

namespace Rooted.Regular

variable {r : Rooted} {bs : List (Branch NodeId)}

theorem holds (h : r.Regular bs) : r.tree.Holds none (.node r.root bs) :=
  ⟨h.stretch.live, h.parent_root, by simpa using h.stretch.children, h.stretch.holds⟩

theorem nodup (h : r.Regular bs) : (Branch.node r.root bs).labels.Nodup := by
  simpa using h.stretch.nodup

theorem preorder (h : r.Regular bs) : r.tree.preorder r.root = r.root :: labelsOfAll bs :=
  h.holds.preorder h.nodup

theorem content (h : r.Regular bs) :
    r.content = .node (r.tree.kind r.root) (Branch.mapAll r.tree.kind bs) :=
  h.holds.content h.nodup

end Rooted.Regular

/-- There is nothing below a root that has just been created. -/
theorem draws_create {t : Tree} (h : t.Accounted) (kind : NodeKind) :
    Draws { tree := (t.create kind).1, root := (t.create kind).2 } { root := kind } [] [] := by
  have hg := h.grows_create kind
  obtain ⟨hl, hp, hc, -⟩ := hg.holds
  refine ⟨hg.accounted, ⟨hl, by simpa [enclose] using hc, trivial, by simp, by simp [enclose]⟩, hp,
    h.kind_create kind, rfl, rfl, rfl, rfl⟩

theorem accounted_empty : ({} : Tree).Accounted := ⟨List.nodup_nil, by simp, by simp⟩

theorem draws_empty (kind : NodeKind) :
    Draws { tree := (({} : Tree).create kind).1, root := (({} : Tree).create kind).2 }
      { root := kind } [] [] :=
  draws_create accounted_empty kind

theorem Draft.root_add (d : Draft) (token : Token) : (d.add token).root = d.root := by
  cases token with
  | text content | rawText element content =>
    rw [Draft.add, Draft.addText]
    split
    · rfl
    · split <;> rfl
  | comment content => rfl
  | doctype name =>
    rw [Draft.add]
    split <;> rfl
  | startTag tag =>
    simp only [Draft.add, Draft.startElement]
    split <;> split <;> rfl
  | endTag name =>
    rw [Draft.add, Draft.endElement]
    split <;> rfl

theorem Builder.root_add (b : Builder) (token : Token) : (b.add token).root = b.root := by
  cases token with
  | text content | rawText element content =>
    rw [Builder.add, Builder.appendText]
    split
    · rfl
    · simp only
      split <;> rfl
  | comment content => rfl
  | doctype name =>
    rw [Builder.add]
    split <;> rfl
  | startTag tag =>
    simp only [Builder.add, Builder.startElement]
    split <;> split <;> rfl
  | endTag name =>
    rw [Builder.add, Builder.endElement]
    split <;> rfl

theorem Draft.root_ofTokens (root : NodeKind) (tokens : List Token) :
    (Draft.ofTokens root tokens).root = root := by
  have hall (d : Draft) : (tokens.foldl Draft.add d).root = d.root := by
    induction tokens generalizing d with
    | nil => rfl
    | cons t ts ih => rw [List.foldl_cons, ih, Draft.root_add]
  exact hall { root }

theorem Builder.root_addAll (b : Builder) (tokens : List (Token × Span)) :
    (tokens.foldl (fun b t => b.add t.1) b).root = b.root := by
  induction tokens generalizing b with
  | nil => rfl
  | cons t ts ih => rw [List.foldl_cons, ih, Builder.root_add]

theorem Draws.branches_eq (h : Draws b d inner path) :
    Branch.mapAll b.tree.kind (enclose inner path) = d.branches := by
  rw [Branch.mapAll_enclose, Draft.branches, ← h.path_kinds, h.inner_kinds]

theorem errors_of_parseRooted {kind : NodeKind} {markup : String} {r : Rooted}
    (h : (parseRooted kind markup).outcome = .ok r) : (Lexing.ofMarkup markup).errors = [] := by
  simp only [parseRooted, parseInto] at h
  split at h
  · rename_i hempty
    exact List.isEmpty_iff.1 hempty
  · simp [Except.map] at h

theorem parseRooted_eq {kind : NodeKind} {markup : String} {r : Rooted}
    (h : (parseRooted kind markup).outcome = .ok r) :
    r = ⟨(build (({} : Tree).create kind).1 (({} : Tree).create kind).2
      (Lexing.ofMarkup markup).tokens).tree, (({} : Tree).create kind).2⟩ := by
  simp only [parseRooted, parseInto] at h
  split at h
  · simpa [Except.map] using h.symm
  · simp [Except.map] at h

/-- The tree of parsed markup is the draft of its tokens. -/
theorem parseRooted_ok {kind : NodeKind} {markup : String} {r : Rooted}
    (h : (parseRooted kind markup).outcome = .ok r) :
    ∃ bs, r.Regular bs ∧
      r.content = (Draft.ofTokens kind ((Lexing.ofMarkup markup).tokens.map Prod.fst)).content := by
  obtain ⟨inner, path, hd⟩ :=
    (draws_empty kind).addAll (Lexing.ofMarkup markup).tokens
  have hr := parseRooted_eq h
  have hroot := Builder.root_addAll
    { tree := (({} : Tree).create kind).1, root := (({} : Tree).create kind).2 }
    (Lexing.ofMarkup markup).tokens
  have hstretch := hd.stretch
  have hparent := hd.parent_root
  have hkind := hd.root_kind
  rw [hroot] at hstretch hparent hkind
  have hreg : r.Regular (enclose inner path) := hr ▸ ⟨hd.accounted, hstretch, hparent⟩
  refine ⟨_, hreg, ?_⟩
  rw [hreg.content, hr, Draft.content, Draft.ofTokens, ← hd.branches_eq, ← hkind]
  rfl

/-- A builder keeps no live node but the root and what is below it. -/
theorem Draws.live_addAll (h : Draws b d inner path)
    (hlive : ∀ n, b.tree.contains n = true → n = b.root ∨ n ∈ labelsOfAll (enclose inner path))
    (tokens : List (Token × Span)) :
    ∀ n, (tokens.foldl (fun b t => b.add t.1) b).tree.contains n = true →
      n ∈ (tokens.foldl (fun b t => b.add t.1) b).tree.preorder b.root := by
  induction tokens generalizing b d inner path with
  | nil =>
    intro n hn
    have hholds : b.tree.Holds none (.node b.root (enclose inner path)) :=
      ⟨h.stretch.live, h.parent_root, by simpa using h.stretch.children, h.stretch.holds⟩
    have hpreorder : b.tree.preorder b.root = b.root :: labelsOfAll (enclose inner path) :=
      hholds.preorder (by simpa using h.stretch.nodup)
    rw [List.foldl_nil, hpreorder]
    exact List.mem_cons.2 (hlive n hn)
  | cons t ts ih =>
    obtain ⟨inner', path', h', hputs⟩ := h.add t.1
    rw [List.foldl_cons, ← Builder.root_add b t.1]
    refine ih h' fun n hn => ?_
    rw [Builder.root_add]
    generalize labelsOfAll (enclose inner' path') = nodes' at hputs
    cases hputs with
    | nothing _ hc _ => exact hlive n (hc n ▸ hn)
    | node _ _ hc _ =>
      rcases (hc n).1 hn with hold | rfl
      · exact (hlive n hold).imp_right (List.mem_append_left _)
      · exact .inr (by simp)

/-- Every live node of a parsed tree is below its root. -/
theorem mem_preorder_of_parseRooted {kind : NodeKind} {markup : String} {r : Rooted}
    (h : (parseRooted kind markup).outcome = .ok r) {n : NodeId}
    (hn : r.tree.contains n = true) : n ∈ r.tree.preorder r.root := by
  rw [parseRooted_eq h] at hn ⊢
  refine (draws_empty kind).live_addAll (fun n hn => ?_) _ n hn
  rcases (accounted_empty.grows_create kind).live n hn with hm | hold
  · exact .inl (by simpa using hm)
  · cases hold

end Markup

end LiveMarkup
