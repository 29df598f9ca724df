import LiveMarkup.Proofs.Part.Fits

set_option autoImplicit false

/-!
Bringing one region in step. A region is a stretch between the two boundary nodes of its part; what
happens to it is an exchange of the stretch, and the caches and compiled templates only grow. Texts
and prebuilt nodes, which have no parts of their own, come first.
-/

namespace LiveMarkup

open Branch (labelsOfAll mapAll)
open LiveMarkup.Tree (Exchange Stretch)

/-- From one world to a later one: the nodes `old` below `p` have made place for `new`, and no
template was forgotten. -/
structure World.Turns (objects : Objects) (known known' : Registry) (w w' : World) (p : NodeId)
    (old new : List NodeId) : Prop where
  grown : known.Grown known' w.cache.owner
  coherent : w'.cache.Coherent objects known'
  extends_cache : w.cache.Extends w'.cache
  exchange : Exchange w.tree w'.tree p old new
  textLeaves : w'.tree.TextLeaves

variable {objects : Objects} {known known' known'' : Registry} {w w' w'' : World} {p : NodeId}
  {before after old mid new : List NodeId} {exact : Bool} {part part' : NodePart}
  {f f' f'' : List (Branch NodeId)}

namespace World.Turns

theorem trans (h : Turns objects known known' w w' p old mid)
    (h' : Turns objects known' known'' w' w'' p mid new) :
    Turns objects known known'' w w'' p old new where
  grown := h.grown.trans (h.extends_cache.owner ▸ h'.grown)
  coherent := h'.coherent
  extends_cache := h.extends_cache.trans h'.extends_cache
  exchange := h.exchange.trans h'.exchange
  textLeaves := h'.textLeaves

/-- The same turn for other events. -/
theorem of_tree (h : Turns objects known known' w w' p old new) {v v' : World}
    (ht : v.tree = w.tree) (hc : v.cache = w.cache) (ht' : v'.tree = w'.tree)
    (hc' : v'.cache = w'.cache) : Turns objects known known' v v' p old new where
  grown := hc ▸ h.grown
  coherent := hc' ▸ h.coherent
  extends_cache := hc ▸ hc' ▸ h.extends_cache
  exchange := ht ▸ ht' ▸ h.exchange
  textLeaves := ht' ▸ h.textLeaves

/-- A turn that leaves the cache alone. -/
theorem of_exchange (hc : w.cache.Coherent objects known) (hw : w'.cache = w.cache)
    (hx : Exchange w.tree w'.tree p old new) (hl : w'.tree.TextLeaves) :
    Turns objects known known w w' p old new :=
  ⟨.refl known _, hw ▸ hc, hw ▸ .refl _, hx, hl⟩

theorem kind_eq (h : Turns objects known known' w w' p old new) {n : NodeId}
    (hl : w.tree.contains n = true) (hn : n ∉ old) : w'.tree.kind n = w.tree.kind n := by
  by_cases hp : n = p
  · rw [hp, h.exchange.kind_owner]
  · exact Tree.kind_of_core (h.exchange.core_other n hl hn hp)

end World.Turns

/-- Nodes are what branches say, up to the order of attributes unless `exact`. -/
def Branch.Like (exact : Bool) (kind : NodeId → NodeKind) (f : List (Branch NodeId))
    (bs : List (Branch NodeKind)) : Prop :=
  mapAll (fun n => (kind n).view exact) f = mapAll (NodeKind.view exact) bs

theorem Branch.Like.of_eq {kind : NodeId → NodeKind} {bs : List (Branch NodeKind)}
    (h : mapAll kind f = bs) : Branch.Like exact kind f bs := by
  rw [Branch.Like, ← h, Branch.mapAll_mapAll]
  rfl

/-- A region with a part that says what is in it. -/
structure NodePart.Region (objects : Objects) (known : Registry) (exact : Bool) (w : World)
    (p : NodeId) (before after : List NodeId) (part : NodePart) (f : List (Branch NodeId)) :
    Prop where
  coherent : w.cache.Coherent objects known
  accounted : w.tree.Accounted
  textLeaves : w.tree.TextLeaves
  stretch : Stretch w.tree p (before ++ [part.start]) f (part.stop :: after)
  fits : part.Fits objects known w.tree.kind exact f

/-- A part without parts of its own. -/
def NodePart.Bare (part : NodePart) : Prop :=
  (∀ shared ps, part.state ≠ .nested shared ps) ∧ ∀ ps, part.state ≠ .items ps

/-- A part that can be given a value: where the order of attributes is to be exact, no copy that is
there will be used again, and a part that counts as new shows nothing. -/
structure NodePart.Ready (exact blank : Bool) (part : NodePart) (f : List (Branch NodeId)) :
    Prop where
  bare : exact = true → part.Bare
  empty : blank = true → part.state = .empty ∧ f = []

theorem NodePart.bare_of_empty (h : part.state = .empty) : part.Bare := by
  rw [Bare, h]
  exact ⟨fun _ _ he => (by cases he), fun _ he => (by cases he)⟩

/-- A region that has been brought in step, completely or as far as it went. -/
structure NodePart.Turned (objects : Objects) (known known' : Registry) (exact : Bool)
    (w w' : World) (p : NodeId) (before after : List NodeId) (part part' : NodePart)
    (f f' : List (Branch NodeId)) : Prop where
  turns : World.Turns objects known known' w w' p (labelsOfAll f) (labelsOfAll f')
  stretch : Stretch w'.tree p (before ++ [part.start]) f' (part.stop :: after)
  start_eq : part'.start = part.start
  stop_eq : part'.stop = part.stop
  fits : part'.Fits objects known' w'.tree.kind exact f'

namespace NodePart

/-- A region that has been brought in step is one for the part that came of it. -/
theorem Turned.region (h : Turned objects known known' exact w w' p before after part part' f f') :
    part'.Region objects known' exact w' p before after f' where
  coherent := h.turns.coherent
  accounted := h.turns.exchange.accounted
  textLeaves := h.turns.textLeaves
  stretch := by
    rw [h.start_eq, h.stop_eq]
    exact h.stretch
  fits := h.fits

@[simp] theorem start_withState (part : NodePart) (state : NodeState) :
    (part.withState state).start = part.start := rfl

@[simp] theorem stop_withState (part : NodePart) (state : NodeState) :
    (part.withState state).stop = part.stop := rfl

@[simp] theorem state_withState (part : NodePart) (state : NodeState) :
    (part.withState state).state = state := rfl

theorem eq_mk (part : NodePart) : part = .mk part.start part.stop part.state := by
  cases part
  rfl

/-- Nothing is done. -/
theorem Region.turned_refl (h : Region objects known exact w p before after part f)
    (ht : w'.tree = w.tree) (hc : w'.cache = w.cache)
    (hstart : part'.start = part.start) (hstop : part'.stop = part.stop)
    (hf : part'.Fits objects known w.tree.kind exact f) :
    Turned objects known known exact w w' p before after part part' f f where
  turns := .of_exchange h.coherent hc (ht ▸ .refl h.accounted p _) (ht ▸ h.textLeaves)
  stretch := ht ▸ h.stretch
  start_eq := hstart
  stop_eq := hstop
  fits := ht ▸ hf

/-- The region is emptied. -/
theorem Region.clear (h : Region objects known exact w p before after part f) :
    Exchange w.tree (part.clear w.tree) p (labelsOfAll f) [] ∧
      Stretch (part.clear w.tree) p (before ++ [part.start]) [] (part.stop :: after) ∧
      (part.clear w.tree).TextLeaves := by
  obtain ⟨hx, hs⟩ := h.stretch.clear h.accounted
  exact ⟨hx, hs, h.textLeaves.exchange (g := []) hx hs (h.stretch.owner_not_text h.textLeaves) trivial⟩

theorem Region.loneText (h : Region objects known exact w p before after part f) {n : NodeId}
    (hn : part.loneText w.tree = some n) :
    f = [.node n []] ∧ (w.tree.kind n).isText = true := by
  have hs := h.stretch
  have hstart := (hs.sides part.start (by simp)).2
  match f with
  | [] =>
    have hnext : w.tree.nextSibling part.start = some part.stop :=
      Tree.nextSibling_of_children hstart (by rw [hs.children]; simp; rfl) hs.nodup_children
    simp [NodePart.loneText, hnext] at hn
  | .node m kids :: g =>
    have hnext : w.tree.nextSibling part.start = some m :=
      Tree.nextSibling_of_children hstart (by rw [hs.children]; simp; rfl) hs.nodup_children
    simp only [NodePart.loneText, hnext, Option.ite_none_right_eq_some, Option.some.injEq] at hn
    obtain ⟨⟨-, hafter, htext⟩, rfl⟩ := hn
    have hholds := hs.holds
    have hkids : kids = [] := by
      have hc := h.textLeaves m hholds.1.1 htext
      rw [hholds.1.2.2.1, List.map_eq_nil_iff] at hc
      exact hc
    subst hkids
    match g with
    | [] => exact ⟨rfl, htext⟩
    | b :: g =>
      have hchildren : w.tree.children p = before ++ [part.start] ++
          m :: b.label :: (g.map Branch.label ++ part.stop :: after) := by
        rw [hs.children]
        simp [Branch.label]
      have hnext' : w.tree.nextSibling m = some b.label :=
        Tree.nextSibling_of_children hholds.1.2.1 hchildren hs.nodup_children
      obtain he : b.label = part.stop := Option.some.inj (hnext'.symm.trans hafter)
      exact absurd (he ▸ by simp [b.label_mem_labels]) (hs.side_not_mem (x := part.stop) (by simp))

/-- A text is shown. -/
theorem Region.setText (h : Region objects known exact w p before after part f)
    (shown : Primitive) :
    ∃ n, Turned objects known known exact w (part.setText w shown).world p before after part
        (part.setText w shown).part f [.node n []] ∧
      (part.setText w shown).world.tree.kind n = .text shown.text := by
  unfold NodePart.setText
  split
  · rename_i n hn
    obtain ⟨rfl, htext⟩ := h.loneText hn
    have hlive := h.stretch.holds.1.1
    have he : Tree.Edits w.tree (w.tree.setText n shown.text).1 n (.text shown.text) := by
      cases hk : w.tree.kind n <;> simp [hk, NodeKind.isText] at htext
      simp only [Tree.setText, hk]
      exact h.accounted.edits_setKind hlive _
    obtain ⟨hx, hs⟩ := h.stretch.edit he (by simp)
    exact ⟨n, ⟨.of_exchange h.coherent rfl hx (h.textLeaves.edit he fun _ => htext), hs, rfl, rfl,
      n, rfl, he.kind_self⟩, he.kind_self⟩
  · obtain ⟨hx, hs, hl⟩ := h.clear
    have hg := hx.accounted.grows_create (.text shown.text)
    have hk := hx.accounted.kind_create (.text shown.text)
    obtain ⟨u, n, hu⟩ : ∃ u n, (part.clear w.tree).create (.text shown.text) = (u, n) :=
      ⟨_, _, rfl⟩
    rw [hu] at hg hk
    obtain ⟨hx', hs', hkinds⟩ := hs.insert hg
    have hkind : (u.insertBefore part.stop n).1.kind n = .text shown.text := (hkinds n).trans hk
    have hl' : (u.insertBefore part.stop n).1.TextLeaves :=
      hl.exchange hx' hs' (hs.owner_not_text hl) (by simp)
    simp only [hu]
    exact ⟨n, ⟨.of_exchange h.coherent rfl (hx.trans hx') hl', hs', rfl, rfl, n, rfl, hkind⟩, hkind⟩

theorem fits_text {shown : Primitive} {kind : NodeId → NodeKind}
    (hp : part.state = .text shown) :
    part.Fits objects known kind exact f ↔ ∃ n, f = [.node n []] ∧ kind n = .text shown.text := by
  rw [part.eq_mk, hp]
  rfl

theorem fits_node {fragment : Fragment} {kind : NodeId → NodeKind}
    (hp : part.state = .node fragment) :
    part.Fits objects known kind exact f ↔
      objects.fragments fragment.identity = fragment.nodes ∧
        mapAll kind f = fragment.branches := by
  rw [part.eq_mk, hp]
  rfl

/-- A scalar is shown, unless it already is. -/
theorem Region.setPrimitive (h : Region objects known exact w p before after part f)
    (q : Primitive) :
    ∃ n, Turned objects known known exact w (part.setPrimitive w q).world p before after part
        (part.setPrimitive w q).part f [.node n []] ∧
      (part.setPrimitive w q).world.tree.kind n = .text q.text ∧
      (part.setPrimitive w q).error = none := by
  unfold NodePart.setPrimitive
  split
  · rename_i hs
    unfold NodePart.showsPrimitive at hs
    split at hs
    · rename_i shown hstate
      obtain ⟨n, rfl, hn⟩ := (fits_text hstate).1 h.fits
      exact ⟨n, h.turned_refl rfl rfl rfl rfl h.fits,
        hn.trans (congrArg NodeKind.text (Primitive.text_of_same hs)), rfl⟩
    · cases hs
  · obtain ⟨n, ht, hn⟩ := h.setText q
    exact ⟨n, ht, hn, rfl⟩

/-- A part that was given a scalar shows a text, of the scalar or of one that counts as the same. -/
theorem state_setPrimitive (part : NodePart) (w : World) (q : Primitive) :
    ∃ shown, (part.setPrimitive w q).part.state = .text shown ∧
      (shown = q ∨ shown.same q = true) := by
  unfold NodePart.setPrimitive
  split
  · rename_i hs
    unfold NodePart.showsPrimitive at hs
    split at hs
    · rename_i shown hstate
      exact ⟨shown, hstate, .inr hs⟩
    · cases hs
  · exact ⟨q, rfl, .inl rfl⟩

theorem branches_congr {shown fragment : Fragment} (h : shown.nodes = fragment.nodes) :
    shown.branches = fragment.branches := by
  rw [Fragment.branches, Fragment.branches, h]

theorem leavesAll_branches {fragment : Fragment}
    (hf : objects.fragments fragment.identity = fragment.nodes) :
    Branch.LeavesAll NodeKind.isText fragment.branches := by
  have hl := objects.leaves fragment.identity
  rw [hf] at hl
  unfold Fragment.branches
  split
  · rename_i heq
    exact (heq ▸ hl).2
  · rename_i heq
    exact (heq ▸ hl).2
  · exact ⟨hl, trivial⟩

/-- The arena with a copy of prebuilt nodes in a region. -/
def withCopy (part : NodePart) (tree : Tree) (fragment : Fragment) : Tree :=
  let (tree, copy) := (part.clear tree).importFrom fragment.nodes.tree fragment.nodes.root
  match tree.kind copy with
  | .fragment | .document => (tree.moveChildrenBefore copy part.stop).1.remove copy
  | _ => (tree.insertBefore part.stop copy).1

theorem setNode_cases (part : NodePart) (w : World) (fragment : Fragment) :
    (∃ shown, part.state = .node shown ∧ shown.identity = fragment.identity ∧
        part.setNode w fragment = { part, world := w }) ∨
      part.setNode w fragment =
        { part := part.withState (.node fragment)
          world := w.withTree (part.withCopy w.tree fragment) } := by
  cases hs : part.state with
  | node shown =>
    by_cases hid : shown.identity = fragment.identity
    · exact .inl ⟨shown, rfl, hid, by simp [NodePart.setNode, hs, hid]⟩
    · exact .inr (by simp [NodePart.setNode, hs, hid]; rfl)
  | _ => exact .inr (by simp [NodePart.setNode, hs]; rfl)

theorem state_setNode (part : NodePart) (w : World) (fragment : Fragment) :
    ∃ shown, (part.setNode w fragment).part.state = .node shown ∧
      shown.identity = fragment.identity := by
  rcases part.setNode_cases w fragment with ⟨shown, hstate, hid, heq⟩ | heq
  · exact ⟨shown, by rw [heq]; exact hstate, hid⟩
  · exact ⟨fragment, by rw [heq]; rfl, rfl⟩

/-- The nodes of a region have made place for copies of branches. -/
def Filled (part : NodePart) (tree tree' : Tree) (p : NodeId) (before after : List NodeId)
    (f : List (Branch NodeId)) (bs : List (Branch NodeKind)) : Prop :=
  ∃ f', Exchange tree tree' p (labelsOfAll f) (labelsOfAll f') ∧
    Stretch tree' p (before ++ [part.start]) f' (part.stop :: after) ∧ tree'.TextLeaves ∧
    mapAll tree'.kind f' = bs

theorem Region.withCopy (h : Region objects known exact w p before after part f)
    {fragment : Fragment} (hf : objects.fragments fragment.identity = fragment.nodes) :
    part.Filled w.tree (part.withCopy w.tree fragment) p before after f fragment.branches := by
  obtain ⟨hx, hs, hl⟩ := h.clear
  obtain ⟨c, hid, hg, hkinds⟩ := hx.accounted.grows_graft fragment.nodes.content
  obtain ⟨u, copy, hu⟩ : ∃ u copy,
      (part.clear w.tree).graft fragment.nodes.content = (u, copy) := ⟨_, _, rfl⟩
  rw [hu] at hid hg hkinds
  obtain ⟨copy', bs⟩ := c
  obtain rfl : copy' = copy := hid
  replace hkinds : Branch.node (u.kind copy') (mapAll u.kind bs) = fragment.nodes.content := hkinds
  have himport : (part.clear w.tree).importFrom fragment.nodes.tree fragment.nodes.root =
      (u, copy') := hu
  -- Whichever way the copy comes in, its nodes are the fragment's.
  have hdone {t : Tree} {f' : List (Branch NodeId)}
      (hx' : Exchange (part.clear w.tree) t p [] (labelsOfAll f'))
      (hs' : Stretch t p (before ++ [part.start]) f' (part.stop :: after))
      (hkind : mapAll t.kind f' = fragment.branches) :
      part.Filled w.tree t p before after f fragment.branches :=
    ⟨f', hx.trans hx', hs', hl.exchange hx' hs' (hs.owner_not_text hl)
      (hkind.symm ▸ leavesAll_branches hf), hkind⟩
  have hunpack (hc : fragment.branches = mapAll u.kind bs) :
      part.Filled w.tree ((u.moveChildrenBefore copy' part.stop).1.remove copy') p before after f
        fragment.branches := by
    obtain ⟨hx', hs', hk⟩ := hs.unpack hg
    exact hdone hx' hs' ((Branch.mapAll_congr hk).trans hc.symm)
  have hinsert (hc : fragment.branches = [.node (u.kind copy') (mapAll u.kind bs)]) :
      part.Filled w.tree (u.insertBefore part.stop copy').1 p before after f
        fragment.branches := by
    obtain ⟨hx', hs', hk⟩ := hs.insert hg
    exact hdone hx' hs' ((Branch.mapAll_congr fun n _ => hk n).trans hc.symm)
  have hbranches : fragment.branches = match u.kind copy' with
      | .fragment | .document => mapAll u.kind bs
      | kind => [.node kind (mapAll u.kind bs)] := by
    rw [Fragment.branches, ← hkinds]
    cases u.kind copy' <;> rfl
  simp only [NodePart.withCopy, himport]
  cases hk : u.kind copy' with
  | fragment | document => exact hunpack (by rw [hbranches, hk])
  | _ => exact hinsert (by rw [hbranches, hk])

/-- A copy of prebuilt nodes is shown, unless it already is. -/
theorem Region.setNode (h : Region objects known exact w p before after part f)
    {fragment : Fragment} (hf : objects.fragments fragment.identity = fragment.nodes) :
    ∃ f', Turned objects known known exact w (part.setNode w fragment).world p before after part
        (part.setNode w fragment).part f f' ∧
      mapAll (part.setNode w fragment).world.tree.kind f' = fragment.branches ∧
      (part.setNode w fragment).error = none := by
  rcases part.setNode_cases w fragment with ⟨shown, hstate, hid, heq⟩ | heq
  · obtain ⟨hfaithful, hkinds⟩ := (fits_node hstate).1 h.fits
    have hnodes : shown.nodes = fragment.nodes := by rw [← hfaithful, hid, hf]
    rw [heq]
    exact ⟨f, h.turned_refl rfl rfl rfl rfl h.fits, hkinds.trans (branches_congr hnodes), rfl⟩
  · obtain ⟨f', hx, hs, hl, hkinds⟩ := h.withCopy hf
    rw [heq]
    exact ⟨f', ⟨.of_exchange h.coherent rfl hx hl, hs, rfl, rfl, hf, hkinds⟩, hkinds, rfl⟩

end NodePart

end LiveMarkup
