import LiveMarkup.Proofs.Tree.Hintless
import LiveMarkup.Proofs.Tree.Importing

set_option autoImplicit false

/-!
Hints decide nothing. In a well-formed arena the place of a node among its siblings is found from
whatever place the search starts at, so leaving the hints out goes with every operation on live
nodes, and hints may be written over at any time.
-/

namespace LiveMarkup

open Hintless (Slot)

namespace Tree

variable {t t' : Tree} {id p : NodeId}

theorem slot_unhinted (t : Tree) (id : NodeId) : t.unhinted.slot id = (t.node id).unhinted := by
  simp only [Hintless.slot, unhinted, node, Array.getD_eq_getD_getElem?, Array.getElem?_map]
  cases t.nodes[id.index]? <;> rfl

@[simp] theorem kind_unhinted (t : Tree) (id : NodeId) : t.unhinted.kind id = t.kind id := by
  rw [Hintless.kind, slot_unhinted]
  rfl

@[simp] theorem parent_unhinted (t : Tree) (id : NodeId) : t.unhinted.parent id = t.parent id := by
  rw [Hintless.parent, slot_unhinted]
  rfl

@[simp] theorem children_unhinted (t : Tree) (id : NodeId) :
    t.unhinted.children id = t.children id := by
  rw [Hintless.children, slot_unhinted]
  rfl

@[simp] theorem contains_unhinted (t : Tree) (id : NodeId) :
    t.unhinted.contains id = t.contains id := by
  rw [Hintless.contains, slot_unhinted]
  rfl

/-- Where a live node stands is found from any hint as from the first sibling on. -/
theorem position_unhinted (h : t.Tied []) (hl : t.contains id = true) :
    t.unhinted.position id = t.position id := by
  rw [Hintless.position, parent_unhinted]
  cases hup : t.parent id with
  | none => rw [position_of_parent_none hup]
  | some p =>
    obtain ⟨hp, before, after, hc, hpos⟩ := h.exists_place hl hup List.not_mem_nil
    have hout : id ∉ before := fun hm => by
      have hn := h.nodup p hp
      rw [hc] at hn
      exact (List.nodup_append.1 hn).2.2 id hm id List.mem_cons_self rfl
    rw [hpos]
    simp only [children_unhinted, hc, findIdx?_append_cons hout, Option.map_some]

theorem nextSibling_unhinted (h : t.Tied []) (hl : t.contains id = true) :
    t.unhinted.nextSibling id = t.nextSibling id := by
  simp only [Hintless.nextSibling, Tree.nextSibling, position_unhinted h hl, children_unhinted]

theorem prevSibling_unhinted (h : t.Tied []) (hl : t.contains id = true) :
    t.unhinted.prevSibling id = t.prevSibling id := by
  simp only [Hintless.prevSibling, Tree.prevSibling, position_unhinted h hl, children_unhinted]

/-! ## Operations without hints -/

theorem unhinted_modify (t : Tree) (id : NodeId) {f : Node → Node} {g : Slot → Slot}
    (hfg : ∀ n, (f n).unhinted = g n.unhinted) :
    (t.modify id f).unhinted = t.unhinted.modify id g := by
  rw [Hintless.modify, slot_unhinted, ← hfg]
  simp only [modify, put, unhinted, Array.map_setIfInBounds]

theorem unhinted_create (t : Tree) (kind : NodeKind) :
    unhintedWith (t.create kind) = t.unhinted.create kind := by
  have hfree : t.unhinted.free = t.free := rfl
  rw [Hintless.create, create, hfree]
  cases t.free with
  | nil => simp [unhintedWith, unhinted, Node.unhinted]
  | cons id free =>
    have hput := t.unhinted_modify id (f := fun _ => { kind }) (g := fun _ => { kind }) fun _ => rfl
    simp only [← hput]
    rfl

/-! ### Linking and unlinking -/

theorem unhinted_orphan (t : Tree) (id : NodeId) :
    (t.modify id fun n => { n with parent := none }).unhinted =
      t.unhinted.modify id fun s => { s with parent := none } := t.unhinted_modify id fun _ => rfl

theorem unhinted_list (t : Tree) (p : NodeId) (change : List NodeId → List NodeId) :
    (t.modify p fun n => { n with children := change n.children }).unhinted =
      t.unhinted.modify p fun s => { s with children := change s.children } :=
  t.unhinted_modify p fun _ => rfl

theorem unhinted_adopt (t : Tree) (id p : NodeId) (i : Nat) :
    (t.modify id fun n => { n with parent := some p, hint := i }).unhinted =
      t.unhinted.modify id fun s => { s with parent := some p } := t.unhinted_modify id fun _ => rfl

theorem unhinted_link (t : Tree) (p id : NodeId) (i : Nat) :
    (t.link p id i).unhinted = t.unhinted.link p id i := by
  rw [link, Hintless.link, ← unhinted_adopt t id p i]
  exact unhinted_list _ p (·.insertIdx i id)

theorem unhinted_detach (h : t.Tied []) (hl : t.contains id = true) :
    (t.detach id).unhinted = t.unhinted.detach id := by
  rw [detach, Hintless.detach, position_unhinted h hl]
  cases t.position id with
  | none => rfl
  | some place =>
    simp only [← unhinted_list t place.1 (·.eraseIdx place.2), ← unhinted_orphan]
    rfl

theorem unhinted_detach_of_parent_none (h : t.parent id = none) :
    t.unhinted.detach id = t.unhinted := by
  simp only [Hintless.detach, Hintless.position, parent_unhinted, h]

theorem unhinted_linkAll (t : Tree) (p : NodeId) (ids : List NodeId) (i : Nat) :
    (t.linkAll p ids i).unhinted = t.unhinted.linkAll p ids i := by
  induction ids generalizing t i with
  | nil => rfl
  | cons id ids ih => rw [linkAll, Hintless.linkAll, ih, unhinted_link]

theorem unhinted_append (h : t.Tied []) (hl : t.contains id = true) (p : NodeId) :
    (t.append p id).unhinted = t.unhinted.append p id := by
  simp only [append, Hintless.append, ← unhinted_detach h hl, children_unhinted, ← unhinted_link]
  rfl

theorem unhinted_insertBefore {reference : NodeId} (h : t.Tied [])
    (hr : t.contains reference = true) (hl : t.contains id = true) :
    unhintedWith (t.insertBefore reference id) = t.unhinted.insertBefore reference id := by
  -- The reference is looked for when the node has left its place.
  have hpos := position_unhinted (h.detach List.not_mem_nil hl).1
    ((t.contains_detach id reference).trans hr)
  simp only [insertBefore, Hintless.insertBefore, ← unhinted_detach h hl, hpos]
  cases (t.detach id).position reference with
  | none => rfl
  | some place =>
    simp only [← unhinted_link]
    rfl

theorem unhinted_moveChildren (t : Tree) (source target : NodeId) (before : Option NodeId) :
    (t.moveChildren source target before).unhinted =
      t.unhinted.moveChildren source target before := by
  simp only [moveChildren, Hintless.moveChildren, children_unhinted,
    ← unhinted_list t source fun _ => [], ← unhinted_linkAll]
  split <;> rfl

theorem unhinted_moveChildrenBefore (t : Tree) (source reference : NodeId) :
    unhintedWith (t.moveChildrenBefore source reference) =
      t.unhinted.moveChildrenBefore source reference := by
  rw [moveChildrenBefore, Hintless.moveChildrenBefore, parent_unhinted]
  cases t.parent reference with
  | none => rfl
  | some p =>
    simp only [← unhinted_moveChildren]
    rfl

/-! ### Freeing -/

theorem unhinted_bury (t : Tree) (id : NodeId) : (t.bury id).unhinted = t.unhinted.bury id := by
  have hdead := t.unhinted_modify id (g := fun _ => { live := false })
    (f := fun n => { n with live := false, parent := none, kind := .fragment, children := [] })
    fun _ => rfl
  simp only [Hintless.bury, ← hdead]
  rfl

theorem unhinted_release (t : Tree) (stack : List NodeId) :
    (t.release stack).unhinted = t.unhinted.release stack := by
  fun_induction Tree.release t stack with
  | case1 t => rw [Hintless.release]
  | case2 t id stack below hl ih =>
    rw [Hintless.release, ih, unhinted_bury]
    simp only [contains_unhinted, hl, dif_pos, children_unhinted, below]
  | case3 t id stack hl ih =>
    rw [Hintless.release, ih]
    simp only [contains_unhinted, hl, dif_neg, not_false_eq_true, Bool.false_eq_true]

theorem unhinted_remove (h : t.Tied []) (hl : t.contains id = true) :
    (t.remove id).unhinted = t.unhinted.remove id := by
  rw [remove, Hintless.remove, unhinted_release, unhinted_detach h hl]

theorem unhinted_removeAll (t : Tree) (ids : List NodeId) :
    (t.removeAll ids).unhinted = t.unhinted.removeAll ids := by
  induction ids generalizing t with
  | nil => rfl
  | cons id ids ih =>
    -- The node has just lost its parent, so it is looked for in no list.
    have hnone := t.parent_orphan id
    rw [removeAll, Hintless.removeAll, ih, ← unhinted_orphan, remove, Hintless.remove,
      unhinted_release, detach_of_parent_none hnone, unhinted_detach_of_parent_none hnone]

theorem unhinted_removeRange {first stop : NodeId} (h : t.Tied []) (hf : t.contains first = true)
    (hs : t.contains stop = true) :
    unhintedWith (t.removeRange first stop) = t.unhinted.removeRange first stop := by
  rw [removeRange, Hintless.removeRange, position_unhinted h hf, position_unhinted h hs]
  split
  · rfl
  cases t.position first with
  | none =>
    simp only [← unhinted_remove h hf]
    rfl
  | some place =>
    have hcut (kept : List NodeId) :
        (t.modify place.1 fun n => { n with children := kept }).unhinted =
          t.unhinted.modify place.1 fun s => { s with children := kept } :=
      t.unhinted_list place.1 fun _ => kept
    simp only [children_unhinted, unhintedWith, unhinted_removeAll, ← hcut]
    rfl

theorem unhinted_removeBetween {start stop : NodeId} (h : t.Tied [])
    (hs : t.contains start = true) (hl : t.contains stop = true) :
    unhintedWith (t.removeBetween start stop) = t.unhinted.removeBetween start stop := by
  rw [removeBetween, Hintless.removeBetween, nextSibling_unhinted h hs]
  cases hnext : t.nextSibling start with
  | none => rfl
  | some first =>
    simp only
    split
    · rfl
    · exact unhinted_removeRange h (h.contains_nextSibling hs hnext) hl

/-! ### Editing and copying -/

theorem unhinted_setKind (t : Tree) (id : NodeId) (kind : NodeKind) :
    (t.setKind id kind).unhinted = t.unhinted.setKind id kind := by
  have hkind := t.unhinted_modify id (f := fun n => { n with kind })
    (g := fun s => { s with kind }) fun _ => rfl
  rw [Hintless.setKind, ← hkind]
  rfl

theorem unhinted_setText (t : Tree) (id : NodeId) (content : String) :
    unhintedWith (t.setText id content) = t.unhinted.setText id content := by
  rw [setText, Hintless.setText, kind_unhinted]
  cases t.kind id with
  | text _ =>
    simp only [← unhinted_setKind]
    rfl
  | _ => rfl

theorem unhinted_setAttribute (t : Tree) (id : NodeId) (name value : String) :
    unhintedWith (t.setAttribute id name value) = t.unhinted.setAttribute id name value := by
  rw [setAttribute, Hintless.setAttribute, kind_unhinted]
  cases t.kind id with
  | element _ _ =>
    simp only [← unhinted_setKind]
    rfl
  | _ => rfl

theorem unhinted_removeAttribute (t : Tree) (id : NodeId) (name : String) :
    unhintedWith (t.removeAttribute id name) = t.unhinted.removeAttribute id name := by
  rw [removeAttribute, Hintless.removeAttribute, kind_unhinted]
  cases t.kind id with
  | element _ attributes =>
    simp only [← unhinted_setKind]
    cases attributes.find? (·.name == name) <;> rfl
  | _ => rfl

mutual

theorem unhinted_graft (t : Tree) (b : Branch NodeKind) :
    unhintedWith (t.graft b) = t.unhinted.graft b := by
  match b with
  | .node kind bs =>
    obtain ⟨u, id, hu⟩ : ∃ u id, t.create kind = (u, id) := ⟨_, _, rfl⟩
    obtain ⟨v, ids, hv⟩ : ∃ v ids, u.graftAll id 0 bs = (v, ids) := ⟨_, _, rfl⟩
    have hcreate := t.unhinted_create kind
    have hall := u.unhinted_graftAll id 0 bs
    rw [hu] at hcreate
    rw [hv] at hall
    simp only [graft, Hintless.graft, hu, hv, ← hcreate]
    simp only [unhintedWith, unhinted_list v id fun _ => ids] at hall ⊢
    rw [← hall]

theorem unhinted_graftAll (t : Tree) (p : NodeId) (i : Nat) (bs : List (Branch NodeKind)) :
    unhintedWith (t.graftAll p i bs) = t.unhinted.graftAll p bs := by
  match bs with
  | [] =>
    rw [graftAll, Hintless.graftAll]
    rfl
  | b :: bs =>
    obtain ⟨u, id, hu⟩ : ∃ u id, t.graft b = (u, id) := ⟨_, _, rfl⟩
    obtain ⟨v, hv⟩ : ∃ v, v = u.modify id fun n => { n with parent := some p, hint := i } :=
      ⟨_, rfl⟩
    obtain ⟨w, ids, hw⟩ : ∃ w ids, v.graftAll p (i + 1) bs = (w, ids) := ⟨_, _, rfl⟩
    have hgraft := t.unhinted_graft b
    have hadopt : v.unhinted = _ := hv ▸ u.unhinted_adopt id p i
    have hall := v.unhinted_graftAll p (i + 1) bs
    rw [hu] at hgraft
    rw [hw, hadopt] at hall
    simp only [graftAll, Hintless.graftAll, hu, ← hv, hw, ← hgraft]
    simp only [unhintedWith] at hall ⊢
    rw [← hall]

end

theorem contentWithin_unhinted (t : Tree) (depth : Nat) (id : NodeId) :
    t.unhinted.contentWithin depth id = (t.branchWithin depth id).map t.kind := by
  induction depth generalizing id with
  | zero =>
    rw [Hintless.contentWithin, kind_unhinted, branchWithin, Branch.map_node, Branch.mapAll_nil]
  | succ depth ih =>
    rw [Hintless.contentWithin, kind_unhinted, children_unhinted, branchWithin, Branch.map_node,
      Branch.mapAll_eq_map, List.map_map]
    exact congrArg _ (List.map_congr_left fun c _ => ih c)

theorem unhinted_importFrom (t source : Tree) (root : NodeId) :
    unhintedWith (t.importFrom source root) = t.unhinted.importFrom source.unhinted root := by
  have hsize : source.unhinted.slots.size = source.nodes.size := Array.size_map
  rw [importFrom, Hintless.importFrom, contentWithin_unhinted, hsize]
  exact t.unhinted_graft _

theorem unhinted_rehint (t : Tree) (hint : NodeId → Nat) :
    (t.rehint hint).unhinted = t.unhinted := by
  have hnodes : (t.rehint hint).nodes.map Node.unhinted = t.nodes.map Node.unhinted := by
    refine Array.ext (by simp [rehint]) fun i _ _ => ?_
    simp [rehint, Node.unhinted]
  simp only [unhinted, hnodes]
  rfl

/-! ## Calls -/

theorem Edit.fst_perform (t : Tree) (e : Edit) : (e.perform t).1 = e.apply t := by
  cases e <;> rfl

/-- What a change of live nodes leaves and answers is what it leaves and answers without hints. -/
theorem unhinted_edit {e : Edit} (h : t.Tied []) (he : e.OnLive t) :
    unhintedWith (e.perform t) = t.unhinted.edit e := by
  cases e with
  | create kind => exact congrArg (Prod.map (·) Answer.node) (t.unhinted_create kind)
  | append p id => exact congrArg (·, Answer.nothing) (unhinted_append h he.2 p)
  | insertBefore reference id =>
    exact congrArg (Prod.map (·) Answer.done) (unhinted_insertBefore h he.1 he.2)
  | detach id => exact congrArg (·, Answer.nothing) (unhinted_detach h he)
  | remove id => exact congrArg (·, Answer.nothing) (unhinted_remove h he)
  | removeRange first stop =>
    exact congrArg (Prod.map (·) Answer.count) (unhinted_removeRange h he.1 he.2)
  | removeBetween start stop =>
    exact congrArg (Prod.map (·) Answer.count) (unhinted_removeBetween h he.1 he.2)
  | moveChildren source target before =>
    exact congrArg (·, Answer.nothing) (t.unhinted_moveChildren source target before)
  | moveChildrenBefore source reference =>
    exact congrArg (Prod.map (·) Answer.done) (t.unhinted_moveChildrenBefore source reference)
  | setKind id kind => exact congrArg (·, Answer.nothing) (t.unhinted_setKind id kind)
  | setText id content =>
    exact congrArg (Prod.map (·) Answer.done) (t.unhinted_setText id content)
  | setAttribute id name value =>
    exact congrArg (Prod.map (·) Answer.done) (t.unhinted_setAttribute id name value)
  | removeAttribute id name =>
    exact congrArg (Prod.map (·) Answer.attribute) (t.unhinted_removeAttribute id name)
  | importFrom source root =>
    exact congrArg (Prod.map (·) Answer.node) (t.unhinted_importFrom source root)

theorem unhinted_call {c : Call} (h : t.Tied []) (hc : c.OnLive t) :
    unhintedWith (c.perform t) = t.unhinted.call c := by
  cases c with
  | edit e => exact unhinted_edit h hc
  | nextSibling id =>
    exact congrArg (t.unhinted, Answer.neighbour ·) (nextSibling_unhinted h hc).symm
  | prevSibling id =>
    exact congrArg (t.unhinted, Answer.neighbour ·) (prevSibling_unhinted h hc).symm
  | rehint hint => exact congrArg (·, Answer.nothing) (t.unhinted_rehint hint)

theorem Tied.edit {e : Edit} (h : t.Tied []) (ha : t.Accounted) (he : e.OnLive t) :
    (e.apply t).Tied [] := by
  cases e with
  | create kind => exact h.create ha kind
  | append p id => exact h.append he.1 he.2
  | insertBefore reference id => exact h.insertBefore he.1 he.2
  | detach id => exact (h.detach List.not_mem_nil he).1
  | remove id => exact h.remove List.not_mem_nil he
  | removeRange first stop => exact h.removeRange he.1
  | removeBetween start stop => exact h.removeBetween he.1
  | moveChildren source target before => exact h.moveChildren he.1 he.2.1 before
  | moveChildrenBefore source reference => exact h.moveChildrenBefore he.1 he.2
  | setKind id kind => exact h.setKind id kind
  | setText id content => exact h.setText id content
  | setAttribute id name value => exact h.setAttribute id name value
  | removeAttribute id name => exact h.removeAttribute id name
  | importFrom source root => exact h.importFrom ha source root

theorem sameLinks_of_unhinted (h : t'.unhinted = t.unhinted) (n : NodeId) : SameLinks t t' n := by
  rw [SameLinks, ← contains_unhinted, ← parent_unhinted, ← children_unhinted, h]
  exact ⟨t.contains_unhinted n, t.parent_unhinted n, t.children_unhinted n⟩

theorem Accounted.of_unhinted (h : t.Accounted) (hu : t'.unhinted = t.unhinted) : t'.Accounted := by
  have hlive (t : Tree) : t.nodes.countP (·.live) = t.unhinted.slots.countP (·.live) := by
    rw [unhinted, Array.countP_map]
    rfl
  have hbounds (t : Tree) : t.nodes.size = t.unhinted.slots.size := by simp [unhinted]
  have hfree : t'.free = t.free := congrArg Hintless.free hu
  refine ⟨hfree ▸ h.free_nodup, fun id => ?_, ?_⟩
  · rw [hfree, (sameLinks_of_unhinted hu id).1, hbounds, hu, ← hbounds]
    exact h.mem_free id
  · rw [hlive, hu, ← hlive, ← h.size_eq]
    exact congrArg Hintless.size hu

theorem Tied.call {c : Call} (h : t.Tied []) (ha : t.Accounted) (hc : c.OnLive t) :
    (c.perform t).1.Tied [] ∧ (c.perform t).1.Accounted := by
  cases c with
  | edit e =>
    rw [Call.perform, Edit.fst_perform]
    exact ⟨h.edit ha hc, ha.apply e⟩
  | nextSibling id => exact ⟨h, ha⟩
  | prevSibling id => exact ⟨h, ha⟩
  | rehint hint =>
    have hu := t.unhinted_rehint hint
    exact ⟨h.of_links (sameLinks_of_unhinted hu), ha.of_unhinted hu⟩

/-- Hints are left out at the end as at the beginning, whatever happens in between. -/
theorem unhinted_perform {cs : List Call} (h : t.Tied []) (ha : t.Accounted) (hcs : t.Takes cs) :
    unhintedWith (t.perform cs) = t.unhinted.perform cs := by
  -- Every call finds an arena in which live nodes stand where they say, and leaves one.
  induction cs generalizing t with
  | nil => rfl
  | cons c cs ih =>
    obtain ⟨u, answer, hu⟩ : ∃ u answer, c.perform t = (u, answer) := ⟨_, _, rfl⟩
    have hstep := unhinted_call h hcs.1
    have hnext := h.call ha hcs.1
    have hrest := hcs.2
    rw [hu] at hstep hnext hrest
    have hrun := ih hnext.1 hnext.2 hrest
    simp only [perform, Hintless.perform, hu, ← hstep]
    simp only [unhintedWith] at hrun ⊢
    rw [← hrun]

/-- Whatever the hints of a well-formed arena are, the place of a node is the one place where it
stands, and every sequence of calls on live nodes leaves and answers what it leaves and answers in
the arena that has none and looks through siblings from the first on. -/
theorem hints_decide_nothing (h : t.WellFormed) (hint : NodeId → Nat) :
    (∀ id, t.contains id = true →
      (t.parent id = none → (t.rehint hint).position id = none) ∧
      ∀ p, t.parent id = some p → ∃ i, (t.rehint hint).position id = some (p, i) ∧
        ∀ j, (t.children p)[j]? = some id ↔ j = i) ∧
    ∀ cs, (t.rehint hint).Takes cs →
      unhintedWith ((t.rehint hint).perform cs) = t.unhinted.perform cs := by
  obtain ⟨u, hu⟩ : ∃ u, u = t.rehint hint := ⟨_, rfl⟩
  have hsame : u.unhinted = t.unhinted := hu ▸ t.unhinted_rehint hint
  have hlinks := sameLinks_of_unhinted hsame
  have htied : u.Tied [] := h.tied.of_links hlinks
  have hacc := h.accounted.of_unhinted hsame
  rw [← hu]
  refine ⟨fun id hl => ⟨fun hup => ?_, fun p hup => ?_⟩, fun cs hcs => ?_⟩
  · exact position_of_parent_none ((hlinks id).2.1.trans hup)
  · obtain ⟨hp, before, after, hc, hpos⟩ :=
      htied.exists_place ((hlinks id).1.trans hl) ((hlinks id).2.1.trans hup) List.not_mem_nil
    have hn := htied.nodup p hp
    rw [(hlinks p).2.2] at hc hn
    have hi : (t.children p)[before.length]? = some id := by simp [hc]
    refine ⟨before.length, hpos, fun j => ⟨fun hj => ?_, fun hj => hj ▸ hi⟩⟩
    have hlt := (List.getElem?_eq_some_iff.1 hj).1
    exact (List.getElem?_inj hlt hn).1 (hj.trans hi.symm)
  · rw [← hsame]
    exact unhinted_perform htied hacc hcs

/-- Neighbours are asked for, things come under others and one under itself, hints are written over
in between, and two siblings go, so that a slot is used again. -/
def disorder : List Call :=
  [.nextSibling ⟨2⟩, .edit (.insertBefore ⟨1⟩ ⟨4⟩), .rehint fun _ => 9, .prevSibling ⟨2⟩,
    .edit (.moveChildren ⟨2⟩ ⟨0⟩ (some ⟨3⟩)), .edit (.append ⟨6⟩ ⟨6⟩), .edit (.removeRange ⟨1⟩ ⟨5⟩),
    .edit (.create (.text "g"))]

theorem hints_decide_nothing_shelf :
    let t := ({} : Tree).edit shelf
    let u := t.rehint fun id => 7 - id.index
    t.WellFormed ∧ t.contains ⟨3⟩ = true ∧ t.parent ⟨3⟩ = some ⟨0⟩ ∧ u.Takes disorder ∧
      (∃ i, u.position ⟨3⟩ = some (⟨0⟩, i) ∧ ∀ j, (t.children ⟨0⟩)[j]? = some ⟨3⟩ ↔ j = i) ∧
      unhintedWith (u.perform disorder) = t.unhinted.perform disorder := by
  intro t u
  have hl : t.contains ⟨3⟩ = true := by decide +kernel
  have hup : t.parent ⟨3⟩ = some ⟨0⟩ := by decide +kernel
  have htakes : u.Takes disorder := by
    refine ⟨?_, ⟨?_, ?_⟩, trivial, ?_, ⟨?_, ?_, ?_⟩, ⟨?_, ?_⟩, ⟨?_, ?_⟩, trivial, trivial⟩
    case refine_7 =>
      rintro b ⟨⟩
      decide +kernel
    all_goals
      change Tree.contains _ _ = true
      decide +kernel
  obtain ⟨hplace, hrun⟩ := hints_decide_nothing wellFormed_shelf fun id => 7 - id.index
  exact ⟨wellFormed_shelf, hl, hup, htakes, (hplace ⟨3⟩ hl).2 ⟨0⟩ hup, hrun disorder htakes⟩

end Tree

end LiveMarkup
