import LiveMarkup.Proofs.Render.Confining
import LiveMarkup.Proofs.Render.Relisting
import Mathlib

set_option autoImplicit false

/-!
A list that is given again, as seen from outside: items that stay begin where they began, those
whose values repeat what they were given last are not touched, new items stand behind new separators
at the end, and items that are left over go with their separators.
-/

namespace LiveMarkup

open Branch (labelsOfAll)
open LiveMarkup.Tree (Spares Stretch)
open NodePart (Listing FitsCells Region Renewed Shifted)

mutual

/-- A part ends at a node, and if it is a list, so does the last of its items. -/
def NodePart.EndsAt (stop : NodeId) : NodePart → Prop
  | .mk _ old (.items parts) => old = stop ∧ NodePart.LastEndsAt stop parts
  | .mk _ old .empty | .mk _ old (.text _) | .mk _ old (.nested _ _) | .mk _ old (.node _)
  | .mk _ old (.pending _) => old = stop

/-- There is a last part, and it ends at a node. -/
def NodePart.LastEndsAt (stop : NodeId) : List NodePart → Prop
  | [] => False
  | [part] => part.EndsAt stop
  | _ :: q :: parts => NodePart.LastEndsAt stop (q :: parts)

end

namespace NodePart

/-- A value repeats the last value that a part was given. -/
def Repeated (part : NodePart) (objects : Objects) (w : World) (value : Value) : Prop :=
  ∃ q last, part.LeftBy objects w q last ∧ last.Echoes value

/-- From where a list begins to where it ends, there are its items, each behind the node that it
begins after, and nothing else. -/
def Lines (part : NodePart) (t : Tree) (ps : List NodePart) : Prop :=
  part.start :: t.between part.start part.stop =
    ps.flatMap fun q => q.start :: t.between q.start q.stop

/-- The list `part` with the items `ps` was given values, and now has the items `ps'`; the nodes
`gone` were given up for that. -/
structure Reconciled (objects : Objects) (w w' : World) (part : NodePart) (ps ps' : List NodePart)
    (values : List Value) (gone : List NodeId) : Prop where
  length_eq : ps'.length = values.length
  before : part.Lines w.tree ps
  after : part.Lines w'.tree ps'
  /-- An item that stays begins where it began and was given its value, and one whose value repeats
  the last one has the nodes that it had, as they were. -/
  kept : ∀ (i : Nat) q value, ps[i]? = some q → values[i]? = some value →
    ∃ q', ps'[i]? = some q' ∧ q'.start = q.start ∧ q.start ∉ gone ∧
      q'.LeftBy objects w' q value ∧
      (q.Repeated objects w value →
        w'.tree.region q'.start q'.stop = w.tree.region q.start q.stop ∧
          ∀ n ∈ w.tree.region q.start q.stop, w'.tree.core n = w.tree.core n)
  /-- A new item begins after a new empty text and was given its value. -/
  fresh : ∀ (i : Nat) value, ps.length ≤ i → values[i]? = some value →
    ∃ q', ps'[i]? = some q' ∧ w.tree.spared gone q'.start = false ∧
      w'.tree.kind q'.start = .text "" ∧ w'.tree.children q'.start = [] ∧
      q'.LeftBy objects w' (.mk q'.start part.stop .empty) value
  /-- Items that are left over are freed from the first one's separator to the end of the list. -/
  dropped : ∀ q, ps[values.length]? = some q →
    ∀ n ∈ q.start :: w.tree.region q.start part.stop, w'.tree.contains n = false
  spares : w.tree.Spares w'.tree gone
  /-- Nothing is given up but these nodes and those of items whose values do not repeat. -/
  gone_only : ∀ n ∈ gone,
    (∃ (i : Nat) (q : NodePart) (value : Value), ps[i]? = some q ∧ values[i]? = some value ∧
      ¬ q.Repeated objects w value ∧ n ∈ w.tree.region q.start q.stop) ∨
    ∃ q, ps[values.length]? = some q ∧ n ∈ q.start :: w.tree.region q.start part.stop
  ends : LastEndsAt part.stop ps'

end NodePart

/-- The items of a list are in cells of the tree. -/
structure NodePart.Placed (part : NodePart) (t : Tree) (ps : List NodePart) (cells : Cells) :
    Prop where
  stretch : ∃ p before after f, cells.branches = .node part.start [] :: f ∧
    Stretch t p (before ++ [part.start]) f (part.stop :: after)
  placedAll : NodePart.PlacedAll part.stop ps cells

/-- A list with the cells that its items were in before they were given values, and those that they
are in now. -/
structure NodePart.Rebuilt (objects : Objects) (known : Registry) (w w' : World) (part : NodePart)
    (ps ps' : List NodePart) (cells new : Cells) (values : List Value) (gone : List NodeId) :
    Prop where
  renewed : Renewed objects w.cache.get? w'.cache part.stop ps cells values ps' new gone
  fresh : ∀ c ∈ new.drop ps.length, w.tree.spared gone c.1 = false
  spares : w.tree.Spares w'.tree (gone ++ labelsOfAll (Cells.branches (cells.drop values.length)))
  dead : ∀ n ∈ labelsOfAll (Cells.branches (cells.drop values.length)), w'.tree.contains n = false
  placed : part.Placed w'.tree ps' new
  texts : ∀ n ∈ (new.map Prod.fst).tail, w'.tree.kind n = .text ""
  textLeaves : w'.tree.TextLeaves
  fits : FitsCells objects known w'.tree.kind false part.stop ps' new

variable {objects : Objects} {known known' : Registry} {exact : Bool} {w w' : World} {p : NodeId}
  {before after : List NodeId} {start stop : NodeId} {f f' g : List (Branch NodeId)}
  {part q : NodePart} {ps ps' qs : List NodePart} {cells new left : Cells} {value : Value}
  {values : List Value} {gone : List NodeId} {kind : NodeId → NodeKind} {t t' : Tree} {s : Setting}

namespace Tree

mutual

theorem Holds.children_eq {up up' : Option NodeId} {b : Branch NodeId} (h : t.Holds up b)
    (h' : t'.Holds up' b) {n : NodeId} (hn : n ∈ b.labels) : t'.children n = t.children n := by
  match b with
  | .node id bs =>
    rcases List.mem_cons.1 hn with rfl | hn
    · exact h'.2.2.1.trans h.2.2.1.symm
    · exact h.2.2.2.children_eq h'.2.2.2 hn

theorem HoldsAll.children_eq {up up' : Option NodeId} {bs : List (Branch NodeId)}
    (h : t.HoldsAll up bs) (h' : t'.HoldsAll up' bs) {n : NodeId} (hn : n ∈ labelsOfAll bs) :
    t'.children n = t.children n := by
  match bs with
  | b :: bs =>
    rcases List.mem_append.1 hn with hn | hn
    · exact h.1.children_eq h'.1 hn
    · exact h.2.children_eq h'.2 hn

end

/-- Branches that are there in both trees have not changed if their nodes are spared. -/
theorem Fenced.core_eq {start' stop' : NodeId} (h : t.Fenced start stop f)
    (h' : t'.Fenced start' stop' f) (hs : t.Spares t' gone) (hgone : ∀ n ∈ labelsOfAll f, n ∉ gone)
    {n : NodeId} (hn : n ∈ labelsOfAll f) : t'.core n = t.core n := by
  obtain ⟨_, _, _, hst⟩ := h
  obtain ⟨_, _, _, hst'⟩ := h'
  have hlive := hst.holds.contains hn
  have hspared : t.spared gone n = true := spared_iff.2 ⟨hlive, hgone n hn⟩
  have hcontains : (t'.node n).live = (t.node n).live := (hs.live n hspared).trans hlive.symm
  have hkind : (t'.node n).kind = (t.node n).kind := hs.kind n hspared
  have hparent : (t'.node n).parent = (t.node n).parent := hs.parent n hspared
  have hchildren : (t'.node n).children = (t.node n).children :=
    hst.holds.children_eq hst'.holds hn
  simp only [core, Node.core, hcontains, hkind, hparent, hchildren]

end Tree

namespace Cells

theorem labels_branches (cells : Cells) :
    labelsOfAll cells.branches = cells.flatMap fun c => c.1 :: labelsOfAll c.2 := by
  induction cells with
  | nil => rfl
  | cons c cells ih => simp [ih]

/-- A node is in one cell only. -/
theorem eq_of_mem (h : (labelsOfAll cells.branches).Nodup) {i j : Nat}
    {c d : NodeId × List (Branch NodeId)} (hi : cells[i]? = some c) (hj : cells[j]? = some d)
    {n : NodeId} (hc : n ∈ c.1 :: labelsOfAll c.2) (hd : n ∈ d.1 :: labelsOfAll d.2) : i = j := by
  rw [labels_branches] at h
  have hdisjoint := List.pairwise_iff_getElem.1 (List.nodup_flatMap.1 h).2
  obtain ⟨hlt, rfl⟩ := List.getElem?_eq_some_iff.1 hi
  obtain ⟨hlt', rfl⟩ := List.getElem?_eq_some_iff.1 hj
  rcases Nat.lt_trichotomy i j with hij | hij | hij
  · exact absurd hd (hdisjoint i j hlt hlt' hij hc)
  · exact hij
  · exact absurd hc (hdisjoint j i hlt' hlt hij hd)

theorem start_not_mem (h : (labelsOfAll cells.branches).Nodup)
    {c : NodeId × List (Branch NodeId)} (hc : c ∈ cells) : c.1 ∉ labelsOfAll c.2 := by
  rw [labels_branches] at h
  exact (List.nodup_cons.1 ((List.nodup_flatMap.1 h).1 c hc)).1

/-- The nodes of a list, with the one that it begins after, are different. -/
theorem nodup_branches (h : branches cells = .node start [] :: f)
    (hst : Stretch t p (before ++ [start]) f (stop :: after)) :
    (labelsOfAll (branches cells)).Nodup := by
  rw [h, Branch.labelsOfAll_cons, Branch.labels_node, Branch.labelsOfAll_nil, List.singleton_append]
  exact List.nodup_cons.2 ⟨hst.side_not_mem (by simp), hst.nodup_labels⟩

/-- From where a cell begins to the end of the list there are its content and the cells behind. -/
theorem fenced_rest {rest : Cells} {n : NodeId}
    (h : branches (cells ++ (n, g) :: rest) = .node start [] :: f)
    (hst : Stretch t p (before ++ [start]) f (stop :: after)) :
    t.Fenced n stop (g ++ branches rest) := by
  obtain ⟨l, rfl, -, hbefore⟩ := exists_split h
  obtain ⟨before', hb⟩ := hbefore before
  rw [List.append_assoc, ← List.append_nil (l ++ _)] at hst
  have hnarrow := hst.narrow
  rw [hb] at hnarrow
  exact ⟨p, before', after, hnarrow⟩

end Cells

namespace NodePart

mutual

theorem Fits.endsAt {part : NodePart} {f : List (Branch NodeId)}
    (h : part.Fits objects known kind exact f) : part.EndsAt part.stop := by
  match part with
  | .mk _ _ (.items parts) =>
    obtain ⟨cells, hlaid, -, hcells⟩ := h
    exact ⟨rfl, hcells.lastEndsAt (hcells.placedAll.ne_nil hlaid)⟩
  | .mk _ _ .empty | .mk _ _ (.text _) | .mk _ _ (.nested _ _) | .mk _ _ (.node _)
  | .mk _ _ (.pending _) => rfl

theorem FitsCells.lastEndsAt {stop : NodeId} {parts : List NodePart} {cells : Cells}
    (h : FitsCells objects known kind exact stop parts cells) (hne : parts ≠ []) :
    LastEndsAt stop parts := by
  match parts with
  | [part] =>
    obtain ⟨_, _, rest, -, -, hstop, hfits, rfl⟩ := h
    have hends := hfits.endsAt
    rw [hstop] at hends
    exact hends
  | _ :: q :: parts =>
    obtain ⟨_, _, _, -, -, -, -, h⟩ := h
    exact h.lastEndsAt (List.cons_ne_nil q parts)

end

theorem PlacedAll.exists_cell (h : PlacedAll stop ps cells) {i : Nat} (hq : ps[i]? = some q) :
    ∃ left g rest, cells = left ++ (q.start, g) :: rest ∧ left.length = i ∧
      q.stop = Cells.start stop rest := by
  induction ps generalizing cells i with
  | nil => cases hq
  | cons part ps ih =>
    obtain ⟨n, g, rest, rfl, rfl, hstop, h⟩ := h
    cases i with
    | zero =>
      obtain rfl : part = q := Option.some.inj hq
      exact ⟨[], g, rest, rfl, rfl, hstop⟩
    | succ i =>
      obtain ⟨left, g', rest', rfl, rfl, hstop'⟩ := ih h hq
      exact ⟨(part.start, g) :: left, g', rest', rfl, rfl, hstop'⟩

namespace Placed

theorem nodup (h : part.Placed t ps cells) : (labelsOfAll cells.branches).Nodup := by
  obtain ⟨⟨p, before, after, f, hlaid, hst⟩, -⟩ := h
  exact Cells.nodup_branches hlaid hst

/-- An item has a cell, and the cells from there on reach to the end of the list. -/
theorem exists_cell (h : part.Placed t ps cells) {i : Nat} (hq : ps[i]? = some q) :
    ∃ g rest, cells[i]? = some (q.start, g) ∧ cells.drop i = (q.start, g) :: rest ∧
      t.Fenced q.start q.stop g ∧ t.Fenced q.start part.stop (g ++ Cells.branches rest) := by
  obtain ⟨⟨p, before, after, f, hlaid, hst⟩, hplaced⟩ := h
  obtain ⟨left, g, rest, rfl, rfl, hstop⟩ := hplaced.exists_cell hq
  exact ⟨g, rest, by simp, by simp, hstop ▸ Cells.fenced hlaid hst, Cells.fenced_rest hlaid hst⟩

theorem lines (h : part.Placed t ps cells) : part.Lines t ps := by
  obtain ⟨⟨p, before, after, f, hlaid, hst⟩, hplaced⟩ := h
  have hall : Cells.branches ([] ++ cells) = .node part.start [] :: f := hlaid
  have hfenced := hplaced.fenced hall hst
  have hroots : (part.start :: t.between part.start part.stop) =
      cells.branches.map Branch.label := by
    rw [hlaid, hst.between_eq]
    rfl
  rw [Lines, hroots]
  clear hlaid hall hst hroots
  generalize part.stop = stop at hplaced
  induction ps generalizing cells with
  | nil =>
    obtain rfl : cells = [] := hplaced
    rfl
  | cons q ps ih =>
    obtain ⟨n, g, rest, rfl, rfl, -, hplaced⟩ := hplaced
    obtain ⟨⟨o, left, right, hfirst⟩, hfenced⟩ := List.forall₂_cons.1 hfenced
    rw [List.flatMap_cons, ← ih hfenced hplaced, hfirst.between_eq]
    simp [Branch.label]

end Placed

/-- When parts are left over, the cells that they were in are cut off. -/
theorem Listing.cut {last : NodePart}
    (h : Listing objects known exact w p before after part.start part.stop (ps ++ [last]) (q :: qs)
      new left f) (hlaid : new.branches = .node part.start [] :: f') :
    w.tree.Spares (w.tree.removeRange last.stop part.stop).1 (labelsOfAll left.branches) ∧
      ∀ n ∈ labelsOfAll left.branches,
        (w.tree.removeRange last.stop part.stop).1.contains n = false := by
  obtain ⟨n, g, rest, rfl, -⟩ := h.waiting
  obtain ⟨_, _, rfl, -, _, _, _, rfl, -, hlast, -, rfl⟩ := h.done.split
  replace hlast : last.stop = n := hlast
  have hall := h.laid.resolve_left (by simp)
  rw [Cells.branches_append, hlaid, List.cons_append] at hall
  obtain rfl := (List.cons.inj hall).2
  have hst := h.stretch
  rw [← List.append_nil (f' ++ _)] at hst
  have hnarrow := hst.narrow
  rw [Cells.branches_cons, ← List.nil_append (Branch.node _ _ :: _)] at hnarrow
  obtain ⟨hx, hs, -⟩ := hnarrow.cut h.accounted
  rw [List.nil_append] at hx hnarrow
  rw [hlast]
  refine ⟨.of_exchange hnarrow hx hs, fun m hm => Bool.eq_false_iff.2 fun hl => ?_⟩
  rcases hx.live m hl with hm' | ⟨-, hm'⟩
  · cases hm'
  · exact hm' hm

/-- What is left of a list whose items were given their values. -/
theorem Listing.finished {others : List NodePart} {last : NodePart} {a : Applied NodePart}
    (h : Listing objects known exact w p before after part.start part.stop
      (others.reverse ++ [last]) qs new left f)
    (ha : Patch.finish part { part := (last :: others, qs), world := w } = a) :
    (∃ ps', a.part = part.withState (.items ps') ∧
        List.Forall₂ Shifted (others.reverse ++ [last]) ps') ∧
      w.tree.Spares a.world.tree (labelsOfAll left.branches) ∧
        ∀ n ∈ labelsOfAll left.branches, a.world.tree.contains n = false := by
  subst ha
  cases qs with
  | nil =>
    obtain rfl : left = [] := h.waiting
    refine ⟨⟨others.reverse ++ [last], ?_, Shifted.refl_all _⟩, .refl _ _, fun n hn => by cases hn⟩
    rw [← List.reverse_cons]
    rfl
  | cons q qs =>
    obtain ⟨f', _, _, _, hlaid, -⟩ := h.drop
    refine ⟨⟨others.reverse ++ [last.withStop part.stop], rfl, ?_⟩, h.cut hlaid⟩
    refine List.rel_append (Shifted.refl_all _) (.cons ?_ .nil)
    rw [Shifted, stop_withStop]

/-- A list that is there is given values. -/
theorem Region.rebuilt {depth : Nat} (h : part.Region objects known false w p before after f)
    (hstate : part.state = .items ps) (hlaid : cells.branches = .node part.start [] :: f)
    (htexts : ∀ c ∈ cells.tail, w.tree.kind c.1 = .text "")
    (hfits : FitsCells objects known w.tree.kind false part.stop ps cells)
    (hs : s.deferreds.Faithful objects) (hvalues : ∀ v ∈ values, v.Faithful objects)
    (hne : values ≠ []) {a : Applied NodePart}
    (ha : Patch.iterable (.within depth) s w part values = a) (he : a.error = none) :
    ∃ known' ps' new gone, a.part = part.withState (.items ps') ∧
      Rebuilt objects known' w a.world part ps ps' cells new values gone := by
  have hlisting : Listing objects known false w p before after part.start part.stop [] ps [] cells
      f :=
    ⟨h.coherent, h.accounted, h.textLeaves, h.stretch, .inr hlaid, Cells.texts_tail htexts, rfl,
      hfits⟩
  rw [Patch.iterable_items _ _ _ hstate] at ha
  obtain ⟨b, hb⟩ : ∃ b, Patch.items (.within depth) s part.start part.stop w [] ps values = b :=
    ⟨_, rfl⟩
  rw [hb] at ha
  have hnone : b.error = none := by rw [← Patch.error_finish part b, ha, he]
  obtain ⟨known', ps₀, news, new, gone, f₁, hrelisted⟩ :=
    hlisting.relisted (.inr (hfits.placedAll.ne_nil hlaid)) (fun _ _ _ _ hg => hg) hs hvalues
      part.start hb hnone
  obtain rfl : ps₀ = [] := List.forall₂_nil_left_iff.1 hrelisted.shifted
  obtain ⟨others, last, rfl⟩ := hrelisted.renewed.exists_last hne
  have hdone := hrelisted.listing
  have hpart := hrelisted.part_eq
  have hspares := hrelisted.spares
  have hrenewed := hrelisted.renewed
  obtain ⟨⟨done, rest⟩, v, error⟩ := b
  obtain rfl : error = none := hnone
  rw [List.nil_append, List.reverse_append, List.reverse_singleton, List.reverse_reverse] at hpart
  obtain ⟨rfl, rfl⟩ := Prod.mk.inj hpart
  obtain ⟨f', ps₁, hturns, hst, hpart₁, hcache, hlaid', htexts', hfits', -⟩ := hdone.finish ha
  obtain ⟨⟨ps', hpart', hmoved⟩, hcut, hdead⟩ := hdone.finished ha
  obtain rfl : ps₁ = ps' := by
    have hsame := hpart₁.symm.trans hpart'
    injection hsame with _ _ hitems
    injection hitems
  refine ⟨known', ps₁, new, gone, hpart', ?_, hrelisted.fresh, hspares.trans hcut, hdead,
    ⟨⟨p, before, after, f', hlaid', hst⟩, hfits'.placedAll⟩, htexts', hturns.textLeaves, hfits'⟩
  rw [hcache]
  exact hrenewed.shifted hmoved

namespace Rebuilt

/-- The nodes that are given up are those of items whose values say something else and of the cells
that are left over. -/
theorem gone_only (h : Rebuilt objects known w w' part ps ps' cells new values gone)
    (hold : part.Placed w.tree ps cells) (hc : w.cache.Coherent objects known') {n : NodeId}
    (hn : n ∈ gone) :
    ∃ (i : Nat) (q : NodePart) (value : Value), ps[i]? = some q ∧ values[i]? = some value ∧
      ¬ q.Repeated objects w value ∧ n ∈ w.tree.region q.start q.stop := by
  obtain ⟨i, q, m, g, value, hq, hg, hv, hn, hnot⟩ := h.renewed.exists_of_mem_gone hn
  obtain ⟨g', rest, hcell, -, hfenced, -⟩ := hold.exists_cell hq
  obtain ⟨rfl, rfl⟩ := Prod.mk.inj (Option.some.inj (hcell.symm.trans hg))
  refine ⟨i, q, value, hq, hv, ?_, hfenced.region_eq ▸ hn⟩
  rintro ⟨o, last, hleft, hechoes⟩
  exact hnot (hleft.echoed hc hfenced hechoes)

/-- A node of an item that stays is given up only if it is inside and the item's value says something
else. -/
theorem of_mem_gone (h : Rebuilt objects known w w' part ps ps' cells new values gone)
    (hold : part.Placed w.tree ps cells) {i : Nat} (hq : ps[i]? = some q)
    (hv : values[i]? = some value) {m n : NodeId} (hcell : cells[i]? = some (m, g))
    (hmem : n ∈ m :: labelsOfAll g)
    (hn : n ∈ gone ++ labelsOfAll (Cells.branches (cells.drop values.length))) :
    n ∈ labelsOfAll g ∧ ¬ q.Echoed objects w.cache.get? g value := by
  rcases List.mem_append.1 hn with hn | hn
  · obtain ⟨j, q', m', g', value', hq', hg', hv', hn, hnot⟩ := h.renewed.exists_of_mem_gone hn
    obtain rfl := Cells.eq_of_mem hold.nodup hcell hg' hmem (List.mem_cons_of_mem _ hn)
    obtain rfl := Option.some.inj (hq.symm.trans hq')
    obtain rfl := Option.some.inj (hv.symm.trans hv')
    obtain ⟨rfl, rfl⟩ := Prod.mk.inj (Option.some.inj (hcell.symm.trans hg'))
    exact ⟨hn, hnot⟩
  · obtain ⟨d, hd, hn⟩ := Cells.mem_branches.1 hn
    obtain ⟨k, hk⟩ := List.getElem?_of_mem hd
    rw [List.getElem?_drop] at hk
    have hi := Cells.eq_of_mem hold.nodup hcell hk hmem hn
    have hlt := (List.getElem?_eq_some_iff.1 hv).1
    omega

/-- What becomes of an item that stays. -/
theorem kept (h : Rebuilt objects known w w' part ps ps' cells new values gone)
    (hold : part.Placed w.tree ps cells) (hc : w.cache.Coherent objects known') {i : Nat}
    (hq : ps[i]? = some q) (hv : values[i]? = some value) :
    ∃ q', ps'[i]? = some q' ∧ q'.start = q.start ∧
      q.start ∉ gone ++ labelsOfAll (Cells.branches (cells.drop values.length)) ∧
      q'.LeftBy objects w' q value ∧
      (q.Repeated objects w value →
        w'.tree.region q'.start q'.stop = w.tree.region q.start q.stop ∧
          ∀ n ∈ w.tree.region q.start q.stop, w'.tree.core n = w.tree.core n) := by
  obtain ⟨q', m, g, g', hq', hcell, hcell', hcame, hstill⟩ := h.renewed.exists_item hq hv
  obtain ⟨g₁, -, hcell₁, -, hfenced, -⟩ := hold.exists_cell hq
  obtain ⟨rfl, rfl⟩ := Prod.mk.inj (Option.some.inj (hcell₁.symm.trans hcell))
  obtain ⟨g₂, -, hcell₂, -, hfenced', -⟩ := h.placed.exists_cell hq'
  obtain ⟨hstart, rfl⟩ := Prod.mk.inj (Option.some.inj (hcell₂.symm.trans hcell'))
  refine ⟨q', hq', hstart, fun hn => ?_, ⟨g₂, hcame, hfenced'⟩, ?_⟩
  · exact Cells.start_not_mem hold.nodup (List.mem_of_getElem? hcell)
      (h.of_mem_gone hold hq hv hcell List.mem_cons_self hn).1
  · rintro ⟨o, last, hleft, hechoes⟩
    have hechoed := hleft.echoed hc hfenced hechoes
    obtain rfl := hstill hechoed
    rw [hfenced.region_eq, hfenced'.region_eq]
    refine ⟨rfl, fun n hn => hfenced.core_eq hfenced' h.spares (fun n hn hgone => ?_) hn⟩
    exact (h.of_mem_gone hold hq hv hcell (List.mem_cons_of_mem _ hn) hgone).2 hechoed

/-- What becomes of a value for which there was no item. -/
theorem exists_fresh (h : Rebuilt objects known w w' part ps ps' cells new values gone)
    (hps : ps ≠ []) {i : Nat} (hi : ps.length ≤ i) (hv : values[i]? = some value) :
    ∃ q', ps'[i]? = some q' ∧
      w.tree.spared (gone ++ labelsOfAll (Cells.branches (cells.drop values.length))) q'.start =
        false ∧
      w'.tree.kind q'.start = .text "" ∧ w'.tree.children q'.start = [] ∧
      q'.LeftBy objects w' (.mk q'.start part.stop .empty) value := by
  obtain ⟨q', n, g, hq', hcell, hcame⟩ := h.renewed.exists_fresh hi hv
  obtain ⟨g₁, -, hcell₁, -, hfenced, -⟩ := h.placed.exists_cell hq'
  obtain ⟨rfl, rfl⟩ := Prod.mk.inj (Option.some.inj (hcell₁.symm.trans hcell))
  have hdrop : (q'.start, g₁) ∈ new.drop ps.length := by
    refine List.mem_of_getElem? (i := i - ps.length) ?_
    rw [List.getElem?_drop, Nat.add_sub_cancel' hi, hcell]
  have htail : (q'.start, g₁) ∈ new.tail := by
    rw [← List.drop_one]
    exact List.drop_subset_drop_left _ (List.length_pos_iff.2 hps) hdrop
  have htext := h.texts q'.start (List.map_tail ▸ List.mem_map_of_mem htail)
  have hlive : w'.tree.contains q'.start = true := by
    obtain ⟨o, left, right, hst⟩ := hfenced
    exact (hst.sides q'.start (by simp)).1
  refine ⟨q', hq', Bool.eq_false_iff.2 fun hn => ?_, htext,
    h.textLeaves _ hlive (by rw [htext]; rfl), ⟨g₁, hcame, hfenced⟩⟩
  have hnew := h.fresh _ hdrop
  rw [Tree.spared_of_subset (List.subset_append_left _ _) hn] at hnew
  cases hnew

theorem reconciled (h : Rebuilt objects known w w' part ps ps' cells new values gone)
    (hold : part.Placed w.tree ps cells) (hc : w.cache.Coherent objects known') (hps : ps ≠ [])
    (hvalues : values ≠ []) :
    Reconciled objects w w' part ps ps' values
      (gone ++ labelsOfAll (Cells.branches (cells.drop values.length))) where
  length_eq := h.renewed.length_eq
  before := hold.lines
  after := h.placed.lines
  kept _ _ _ := h.kept hold hc
  fresh _ _ := h.exists_fresh hps
  dropped q hq n hn := by
    obtain ⟨g, rest, -, hdrop, -, hfenced⟩ := hold.exists_cell hq
    refine h.dead n ?_
    rwa [hdrop, Cells.branches_cons, Branch.labelsOfAll_cons, ← hfenced.region_eq]
  spares := h.spares
  gone_only n hn := by
    rcases List.mem_append.1 hn with hn | hn
    · exact .inl (h.gone_only hold hc hn)
    · obtain ⟨q, hq⟩ : ∃ q, ps[values.length]? = some q := by
        refine Option.ne_none_iff_exists'.1 fun hnone => ?_
        rw [List.drop_eq_nil_of_le
          (hold.placedAll.length_eq ▸ List.getElem?_eq_none_iff.1 hnone)] at hn
        cases hn
      obtain ⟨g, rest, -, hdrop, -, hfenced⟩ := hold.exists_cell hq
      rw [hdrop, Cells.branches_cons, Branch.labelsOfAll_cons, ← hfenced.region_eq] at hn
      exact .inr ⟨q, hq, hn⟩
  ends := h.fits.lastEndsAt fun hnil => hvalues (by
    have hlength := h.renewed.length_eq
    rw [hnil] at hlength
    exact List.length_eq_zero_iff.1 hlength.symm)

end Rebuilt

/-- Every item is as its value has left it. -/
theorem Reconciled.exists_leftBy (h : Reconciled objects w w' part ps ps' values gone) {i : Nat}
    (hq : ps'[i]? = some q) (hv : values[i]? = some value) : ∃ o, q.LeftBy objects w' o value := by
  cases hold : ps[i]? with
  | some o =>
    obtain ⟨q', hq', -, -, hleft, -⟩ := h.kept i o value hold hv
    obtain rfl := Option.some.inj (hq.symm.trans hq')
    exact ⟨o, hleft⟩
  | none =>
    obtain ⟨q', hq', -, -, -, hleft⟩ := h.fresh i value (List.getElem?_eq_none_iff.1 hold) hv
    obtain rfl := Option.some.inj (hq.symm.trans hq')
    exact ⟨_, hleft⟩

/-- A list that is in its region is given values without an error. -/
theorem Region.reconciles (h : part.Region objects known false w p before after f)
    (hstate : part.state = .items ps) (hs : s.deferreds.Faithful objects)
    (hvalues : ∀ v ∈ values, v.Faithful objects) (hne : values ≠ []) {a : Applied NodePart}
    (ha : part.setValue s w (.iterable values) = a) (he : a.error = none) :
    ∃ ps' gone, a.part = part.withState (.items ps') ∧
      Reconciled objects w a.world part ps ps' values gone := by
  obtain ⟨depth, -, hset⟩ := part.exists_setValue_step s w (.iterable values)
  obtain ⟨cells, hlaid, htexts, hfits⟩ := (fits_items hstate).1 h.fits
  obtain ⟨known', ps', new, gone, hpart, hrebuilt⟩ :=
    h.rebuilt hstate hlaid htexts hfits hs hvalues hne (hset.symm.trans ha) he
  have hplaced : part.Placed w.tree ps cells :=
    ⟨⟨p, before, after, f, hlaid, h.stretch⟩, hfits.placedAll⟩
  exact ⟨ps', _, hpart, hrebuilt.reconciled hplaced h.coherent (hfits.placedAll.ne_nil hlaid) hne⟩

/-- A part that is no list is given one as if it were a list of one empty item. -/
theorem iterable_blank (patch : Patch) (s : Setting) (w : World) (part : NodePart)
    (hstate : ∀ ps, part.state ≠ .items ps) (hne : values ≠ []) :
    Patch.iterable patch s w part values =
      Patch.iterable patch s (w.withTree (part.clear w.tree))
        (part.withState (.items [.mk part.start part.stop .empty])) values := by
  obtain ⟨value, values, rfl⟩ := List.exists_cons_of_ne_nil hne
  rw [Patch.iterable_other _ _ _ hstate, Patch.iterable_items _ _ _ (state_withState _ _), Patch.items,
    Patch.items]
  simp only [heldByAll, List.append_nil]
  rfl

/-- A part that is given a list has an item for each value, as the value has left it. -/
theorem Region.exists_leftBy (h : part.Region objects known false w p before after f)
    (hs : s.deferreds.Faithful objects) (hvalues : ∀ v ∈ values, v.Faithful objects)
    (hne : values ≠ []) {a : Applied NodePart} (ha : part.setValue s w (.iterable values) = a)
    (he : a.error = none) :
    ∃ ps', a.part = part.withState (.items ps') ∧ ps'.length = values.length ∧
      ∀ (i : Nat) q value, ps'[i]? = some q → values[i]? = some value →
        ∃ o, q.LeftBy objects a.world o value := by
  by_cases hstate : ∃ ps, part.state = .items ps
  · obtain ⟨ps, hstate⟩ := hstate
    obtain ⟨ps', gone, hpart, hreconciled⟩ := h.reconciles hstate hs hvalues hne ha he
    exact ⟨ps', hpart, hreconciled.length_eq, fun i q value => hreconciled.exists_leftBy⟩
  · obtain ⟨depth, -, hset⟩ := part.exists_setValue_step s w (.iterable values)
    obtain ⟨hx, hst, hl⟩ := h.clear
    obtain ⟨blank, hblank⟩ : ∃ blank, blank = part.withState
        (.items [.mk part.start part.stop .empty]) := ⟨_, rfl⟩
    have hlaid : Cells.branches [(part.start, [])] = .node part.start [] :: [] := rfl
    have hfits : FitsCells objects known (part.clear w.tree).kind false part.stop
        [.mk part.start part.stop .empty] [(part.start, [])] :=
      ⟨_, [], [], rfl, rfl, rfl, trivial, rfl⟩
    have hregion : blank.Region objects known false (w.withTree (part.clear w.tree)) p before after
        [] := by
      rw [hblank]
      exact ⟨h.coherent, hx.accounted, hl, hst, _, hlaid, by simp, hfits⟩
    have heq : Patch.iterable (.within depth) s (w.withTree (part.clear w.tree)) blank values = a := by
      rw [hblank, ← iterable_blank _ _ _ _ (fun ps hps => hstate ⟨ps, hps⟩) hne, ← ha, hset]
      rfl
    subst hblank
    obtain ⟨known', ps', new, gone, hpart, hrebuilt⟩ :=
      hregion.rebuilt rfl hlaid (by simp) hfits hs hvalues hne heq he
    have hreconciled := hrebuilt.reconciled ⟨⟨p, before, after, [], hlaid, hst⟩, hfits.placedAll⟩
      h.coherent (List.cons_ne_nil _ _) hne
    exact ⟨ps', hpart, hreconciled.length_eq, fun i q value => hreconciled.exists_leftBy⟩

/-- A part is given a list and then another one: the items for which the second says what the first
one said are not touched. -/
theorem Region.items_stay {values' : List Value} {s' : Setting}
    (h : part.Region objects known false w p before after f) (hs : s.deferreds.Faithful objects)
    (hs' : s'.deferreds.Faithful objects) (hvalues : ∀ v ∈ values, v.Faithful objects)
    (hvalues' : ∀ v ∈ values', v.Faithful objects) (hne : values ≠ []) (hne' : values' ≠ [])
    {a b : Applied NodePart} (ha : part.setValue s w (.iterable values) = a) (he : a.error = none)
    (hb : a.part.setValue s' a.world (.iterable values') = b) (he' : b.error = none) :
    ∃ qs rs, a.part.state = .items qs ∧ b.part.state = .items rs ∧
      ∀ (i : Nat) q v v', qs[i]? = some q → values[i]? = some v → values'[i]? = some v' →
        v.Echoes v' → ∃ r, rs[i]? = some r ∧ r.start = q.start ∧
          b.world.tree.region r.start r.stop = a.world.tree.region q.start q.stop ∧
          ∀ n ∈ a.world.tree.region q.start q.stop, b.world.tree.core n = a.world.tree.core n := by
  obtain ⟨qs, hpart, -, hleft⟩ := h.exists_leftBy hs hvalues hne ha he
  have hlist : (Value.iterable values).Faithful objects := Value.faithfulAll_iff.2 hvalues
  obtain ⟨known', f', ho⟩ := h.outcome hs hlist
    (Patch.depthFor s part.depth (Value.iterable values).weight)
  have hregion : a.part.Region objects known' false a.world p before after f' :=
    ha ▸ ho.turned.region
  have hstate : a.part.state = .items qs := by rw [hpart, state_withState]
  obtain ⟨rs, gone, hpart', hsecond⟩ := hregion.reconciles hstate hs' hvalues' hne' hb he'
  refine ⟨qs, rs, hstate, by rw [hpart', state_withState], fun i q v v' hq hv hv' hechoes => ?_⟩
  obtain ⟨r, hr, hstart, -, -, hstill⟩ := hsecond.kept i q v' hq hv'
  obtain ⟨o, hleft⟩ := hleft i q v hq hv
  exact ⟨r, hr, hstart, hstill ⟨o, v, hleft, hechoes⟩⟩

end NodePart

/-- Whatever part of whatever root to which calls have led has a region of its own. -/
theorem Host.Reachable.exists_region {h : Host} (hh : h.Reachable objects) {root : RenderRoot}
    (hroot : root ∈ h.roots) {r : Renderer} (hr : r ∈ h.renderers)
    (hpart : part ∈ Part.subpartsOfAll root.parts) :
    ∃ known o left right g, part.Region objects known false (root.world r) o left right g := by
  obtain ⟨known, hsound⟩ := hh.sound
  obtain ⟨label, closing, shown, f, hst⟩ := hsound.roots root hroot
  obtain ⟨i, hi⟩ := List.getElem?_of_mem hr
  obtain ⟨site, hsite⟩ := Part.exists_site hpart
  obtain ⟨o, left, right, g, hregion, -⟩ := hst.focus (hsound.renderers i r hi).2 hsite
  exact ⟨known, o, left, right, g, hregion⟩

/-- Whatever list of whatever root to which calls have led is given values without an error: it has
an item for each value then, in the parts that were there and in new ones. -/
theorem Host.Reachable.setValue_reconciles {h : Host} (hh : h.Reachable objects) {root : RenderRoot}
    (hroot : root ∈ h.roots) {r : Renderer} (hr : r ∈ h.renderers)
    (hpart : part ∈ Part.subpartsOfAll root.parts) (hstate : part.state = .items ps)
    (hs : s.deferreds.Faithful objects) (hvalues : ∀ v ∈ values, v.Faithful objects)
    (hne : values ≠ [])
    (he : (part.setValue s (root.world r) (.iterable values)).error = none) :
    let a := part.setValue s (root.world r) (.iterable values)
    ∃ ps' gone, a.part = part.withState (.items ps') ∧
      NodePart.Reconciled objects (root.world r) a.world part ps ps' values gone := by
  intro a
  obtain ⟨known, o, left, right, g, hregion⟩ := hh.exists_region hroot hr hpart
  exact hregion.reconciles hstate hs hvalues hne rfl he

/-- The regions of the items of a list. -/
def NodePart.itemRegions (part : NodePart) (t : Tree) : Option (List (List NodeId)) :=
  match part.state with
  | .items ps => some (ps.map fun q => t.region q.start q.stop)
  | _ => none

namespace Host

/-- A paragraph as a value. -/
def row : Value := .ofResult (paragraph [.primitive (.str "note"), .primitive (.str "one")])

/-- A host that shows a paragraph with a list of one paragraph. -/
def withRow : Host :=
  run {} [.newRenderer {}, .renderRoot 0 {} (paragraph [.primitive (.str "note"), .iterable [row]])]

theorem row_faithful : row.Faithful (.only (paragraph []).strings) := ⟨rfl, trivial, trivial, trivial⟩

theorem reachable_withRow : withRow.Reachable (.only (paragraph []).strings) :=
  reachable_showing {} Setting.faithful_empty ⟨rfl, trivial, ⟨row_faithful, trivial⟩, trivial⟩

/-- The paragraph of the list is given once more, with a text behind it. -/
theorem withRow_setValue_reconciles :
    ∃ root ∈ withRow.roots, ∃ r ∈ withRow.renderers, ∃ part ∈ Part.subpartsOfAll root.parts,
      let values := [row, .primitive (.str "two")]
      let a := part.setValue {} (root.world r) (.iterable values)
      ∃ ps ps' gone, part.state = .items ps ∧ a.part = part.withState (.items ps') ∧
        NodePart.Reconciled (.only (paragraph []).strings) (root.world r) a.world part ps ps' values
          gone := by
  have hruns : (withRow.roots[0]?.bind fun root => withRow.renderers[0]?.bind fun r =>
      (Part.subpartsOfAll root.parts)[0]?.map fun part =>
        ((part.itemRegions root.tree).isSome,
          (part.setValue {} (root.world r)
            (.iterable [row, .primitive (.str "two")])).error.isNone)) = some (true, true) := by
    cbv
  obtain ⟨root, hroot, hruns⟩ := Option.bind_eq_some_iff.1 hruns
  obtain ⟨r, hr, hruns⟩ := Option.bind_eq_some_iff.1 hruns
  obtain ⟨part, hpart, hruns⟩ := Option.map_eq_some_iff.1 hruns
  obtain ⟨hlist, hgiven⟩ := Prod.mk.inj hruns
  obtain ⟨ps, hstate⟩ : ∃ ps, part.state = .items ps := by
    cases hstate : part.state with
    | items ps => exact ⟨ps, rfl⟩
    | _ =>
      rw [NodePart.itemRegions, hstate] at hlist
      cases hlist
  have hvalues : ∀ v ∈ [row, .primitive (.str "two")], v.Faithful (.only (paragraph []).strings) :=
    List.forall_mem_cons.2 ⟨row_faithful, List.forall_mem_singleton.2 trivial⟩
  obtain ⟨ps', gone, hdone, hreconciled⟩ := Reachable.setValue_reconciles reachable_withRow
    (List.mem_of_getElem? hroot) (List.mem_of_getElem? hr) (List.mem_of_getElem? hpart) hstate
    Setting.faithful_empty hvalues (List.cons_ne_nil _ _) (Option.isNone_iff_eq_none.1 hgiven)
  exact ⟨root, List.mem_of_getElem? hroot, r, List.mem_of_getElem? hr, part,
    List.mem_of_getElem? hpart, ps, ps', gone, hstate, hdone, hreconciled⟩

/-- A paragraph that is given once more to the item that shows it is built anew after the cache was
cleared. -/
theorem withRow_cleared_rebuilds :
    (withRow.call (.clear 0)).Reachable (.only (paragraph []).strings) ∧ row.Echoes row ∧
      ∃ root ∈ (withRow.call (.clear 0)).roots, ∃ r ∈ (withRow.call (.clear 0)).renderers,
        ∃ part ∈ Part.subpartsOfAll root.parts,
          let a := part.setValue {} (root.world r) (.iterable [row])
          a.error.isNone = true ∧ part.itemRegions root.tree = some [[⟨5⟩, ⟨6⟩, ⟨4⟩, ⟨7⟩]] ∧
            a.part.itemRegions a.world.tree = some [[⟨4⟩, ⟨7⟩, ⟨6⟩, ⟨5⟩]] := by
  have hruns : ((withRow.call (.clear 0)).roots[0]?.bind fun root =>
      (withRow.call (.clear 0)).renderers[0]?.bind fun r =>
        (Part.subpartsOfAll root.parts)[0]?.map fun part =>
          let a := part.setValue {} (root.world r) (.iterable [row])
          (a.error.isNone, part.itemRegions root.tree, a.part.itemRegions a.world.tree)) =
      some (true, some [[⟨5⟩, ⟨6⟩, ⟨4⟩, ⟨7⟩]], some [[⟨4⟩, ⟨7⟩, ⟨6⟩, ⟨5⟩]]) := by
    cbv
  obtain ⟨root, hroot, hruns⟩ := Option.bind_eq_some_iff.1 hruns
  obtain ⟨r, hr, hruns⟩ := Option.bind_eq_some_iff.1 hruns
  obtain ⟨part, hpart, hruns⟩ := Option.map_eq_some_iff.1 hruns
  obtain ⟨hgiven, hregions⟩ := Prod.mk.inj hruns
  obtain ⟨calls, hcalls, hrun⟩ := reachable_withRow
  refine ⟨⟨calls ++ [.clear 0], fun c hc => ?_, ?_⟩, ⟨rfl, rfl, rfl, rfl, trivial⟩, root,
    List.mem_of_getElem? hroot, r, List.mem_of_getElem? hr, part, List.mem_of_getElem? hpart, hgiven,
    Prod.mk.inj hregions⟩
  · rcases List.mem_append.1 hc with hc | hc
    · exact hcalls c hc
    · exact List.mem_singleton.1 hc ▸ trivial
  · rw [hrun, run, run, List.foldl_append]
    rfl

end Host
end LiveMarkup
