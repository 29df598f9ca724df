import LiveMarkup.Proofs.Markup.Kinds
import LiveMarkup.Proofs.Markup.Landmarks
import LiveMarkup.Proofs.Markup.Wrapping
import LiveMarkup.Proofs.Tree.Editing

set_option autoImplicit false

/-!
Pre-order is source order. Every node below a root that markup is built under was made by one token,
and in pre-order the nodes come as these tokens do; the elements among them are those of the start
tags. Taking the wrapper away from around SVG content changes nothing about that.
-/

namespace LiveMarkup.Markup

open Branch (labelsOfAll enclose)

/-- A builder that has taken tokens below a root created in a tree. -/
def builderBelow (t : Tree) (kind : NodeKind) (tokens : List (Token × Span)) : Builder :=
  build (t.create kind).1 (t.create kind).2 tokens

/-- Token number `i` makes node `n`: there is no such node before it, and there is one behind it. -/
def MadeAt (t : Tree) (kind : NodeKind) (tokens : List (Token × Span)) (i : Nat) (n : NodeId) :
    Prop :=
  (builderBelow t kind (tokens.take i)).tree.contains n = false ∧
    (builderBelow t kind (tokens.take (i + 1))).tree.contains n = true

/-- The start tags among tokens that are numbered from `first` on. -/
def tagsFrom (first : Nat) (tokens : List (Token × Span)) : List (Nat × StartTag) :=
  (tokens.zipIdx first).filterMap fun
    | ((.startTag tag, _), i) => some (i, tag)
    | _ => none

/-- A node that a start tag makes is its element in a tree. -/
def ElementOf (t : Tree) (kind : NodeKind) (tokens : List (Token × Span)) (shown : Tree)
    (start : Nat × StartTag) (n : NodeId) : Prop :=
  MadeAt t kind tokens start.1 n ∧ ∃ foreign, shown.kind n = start.2.element foreign

/-- Nodes of a tree stand in the order of the tokens that make them: they are all the nodes that
tokens make from number `first` on, and the n-th element is that of the n-th start tag. -/
structure InSourceOrder (t : Tree) (kind : NodeKind) (tokens : List (Token × Span)) (first : Nat)
    (shown : Tree) (nodes : List NodeId) : Prop where
  order : ∃ made : List (Nat × NodeId), nodes = made.map Prod.snd ∧
    made.Pairwise (fun m m' => m.1 < m'.1) ∧
    ∀ i n, (i, n) ∈ made ↔ first ≤ i ∧ MadeAt t kind tokens i n
  elements : List.Forall₂ (ElementOf t kind tokens shown) (tagsFrom first (tokens.drop first))
    (nodes.filter fun n => (shown.kind n).isElement)

variable {t shown shown' : Tree} {kind : NodeKind} {tokens : List (Token × Span)} {first : Nat}
  {nodes : List NodeId}

theorem builderBelow_concat (t : Tree) (kind : NodeKind) (tokens : List (Token × Span))
    (token : Token × Span) :
    builderBelow t kind (tokens ++ [token]) = (builderBelow t kind tokens).add token.1 := by
  rw [builderBelow, build, List.foldl_append]
  rfl

theorem MadeAt.lt_length {i : Nat} {n : NodeId} (h : MadeAt t kind tokens i n) :
    i < tokens.length := by
  by_contra hi
  obtain ⟨hbefore, hafter⟩ := h
  rw [List.take_of_length_le (by omega)] at hbefore hafter
  rw [hbefore] at hafter
  cases hafter

/-- What one more token makes comes to what the others make. -/
theorem madeAt_concat {token : Token × Span} {i : Nat} {n : NodeId} :
    MadeAt t kind (tokens ++ [token]) i n ↔ MadeAt t kind tokens i n ∨ i = tokens.length ∧
      (builderBelow t kind tokens).tree.contains n = false ∧
      ((builderBelow t kind tokens).add token.1).tree.contains n = true := by
  rcases Nat.lt_trichotomy i tokens.length with hi | rfl | hi
  · rw [MadeAt, MadeAt, List.take_append_of_le_length (by omega),
      List.take_append_of_le_length (by omega)]
    exact ⟨.inl, fun h => h.resolve_right fun h => absurd h.1 (by omega)⟩
  · have hnot : ¬ MadeAt t kind tokens tokens.length n := fun h => absurd h.lt_length (by omega)
    rw [MadeAt, List.take_left, List.take_of_length_le (by simp), builderBelow_concat]
    exact ⟨fun h => .inr ⟨rfl, h⟩, fun h => (h.resolve_left hnot).2⟩
  · constructor
    · exact fun h => absurd h.lt_length (by simp; omega)
    · rintro (h | h)
      · exact absurd h.lt_length (by omega)
      · exact absurd h.1 (by omega)

theorem tagsFrom_concat (first : Nat) (tokens : List (Token × Span)) (token : Token × Span) :
    tagsFrom first (tokens ++ [token]) =
      tagsFrom first tokens ++ tagsFrom (first + tokens.length) [token] := by
  rw [tagsFrom, List.zipIdx_append, List.filterMap_append, tagsFrom, tagsFrom, Nat.add_comm]

/-- Elements stay what they are where only texts get longer. -/
theorem elements_of_goesOn {starts : List (Nat × StartTag)}
    (h : List.Forall₂ (ElementOf t kind tokens shown) starts
      (nodes.filter fun n => (shown.kind n).isElement))
    (hk : ∀ n ∈ nodes, (shown.kind n).GoesOn (shown'.kind n)) :
    List.Forall₂ (ElementOf t kind tokens shown') starts
      (nodes.filter fun n => (shown'.kind n).isElement) := by
  rw [List.filter_congr fun n hn => (hk n hn).isElement_eq]
  have hmem : ∀ n ∈ nodes.filter (fun n => (shown.kind n).isElement), n ∈ nodes :=
    fun n hn => List.mem_of_mem_filter hn
  refine ((List.forall₂_and_left _ _).2 ⟨hmem, h.flip⟩).flip.imp ?_
  rintro start n ⟨hn, hmade, foreign, hkind⟩
  refine ⟨hmade, foreign, ?_⟩
  rw [← hkind]
  exact (hk n hn).eq_of_isElement (hkind ▸ rfl)

namespace InSourceOrder

variable {token : Token × Span} {id : NodeId}

theorem nil : InSourceOrder t kind [] 0 shown [] where
  order := ⟨[], rfl, .nil, fun _ _ => ⟨nofun, fun h => absurd h.2.lt_length (Nat.not_lt_zero _)⟩⟩
  elements := .nil

theorem congr (h : InSourceOrder t kind tokens first shown nodes)
    (hk : ∀ n ∈ nodes, shown'.kind n = shown.kind n) :
    InSourceOrder t kind tokens first shown' nodes where
  order := h.order
  elements := elements_of_goesOn h.elements fun n hn => (hk n hn).symm ▸ .same

/-- The elements that there are when one more token comes. -/
theorem elements_concat (h : InSourceOrder t kind tokens 0 shown nodes) (token : Token × Span)
    (hk : ∀ n ∈ nodes, (shown.kind n).GoesOn (shown'.kind n)) :
    List.Forall₂ (ElementOf t kind (tokens ++ [token]) shown') (tagsFrom 0 tokens)
      (nodes.filter fun n => (shown'.kind n).isElement) :=
  (elements_of_goesOn h.elements hk).imp fun _ _ he => ⟨madeAt_concat.2 (.inl he.1), he.2⟩

/-- A token that makes no node. -/
theorem nothing (h : InSourceOrder t kind tokens 0 shown nodes)
    (htag : ∀ tag, token.1 ≠ .startTag tag)
    (hc : ∀ n, ((builderBelow t kind tokens).add token.1).tree.contains n =
      (builderBelow t kind tokens).tree.contains n)
    (hk : ∀ n ∈ nodes, (shown.kind n).GoesOn (shown'.kind n)) :
    InSourceOrder t kind (tokens ++ [token]) 0 shown' nodes := by
  obtain ⟨made, hnodes, hsorted, hmade⟩ := h.order
  refine ⟨⟨made, hnodes, hsorted, fun i n => ?_⟩, ?_⟩
  · have hnot : ¬ (i = tokens.length ∧ (builderBelow t kind tokens).tree.contains n = false ∧
        ((builderBelow t kind tokens).add token.1).tree.contains n = true) := by
      rintro ⟨-, hd, hl⟩
      rw [hc, hd] at hl
      cases hl
    rw [hmade, madeAt_concat, or_iff_left hnot]
  · have hnone : tagsFrom (0 + tokens.length) [token] = [] := by
      obtain ⟨x, span⟩ := token
      cases x <;> first | rfl | exact absurd rfl (htag _)
    rw [List.drop_zero, tagsFrom_concat, hnone, List.append_nil]
    exact h.elements_concat token hk

/-- A token that makes a node. -/
theorem node (h : InSourceOrder t kind tokens 0 shown nodes)
    (hy : token.1.Yields (shown'.kind id))
    (hfresh : (builderBelow t kind tokens).tree.contains id = false)
    (hc : ∀ n, ((builderBelow t kind tokens).add token.1).tree.contains n = true ↔
      (builderBelow t kind tokens).tree.contains n = true ∨ n = id)
    (hk : ∀ n ∈ nodes, (shown.kind n).GoesOn (shown'.kind n)) :
    InSourceOrder t kind (tokens ++ [token]) 0 shown' (nodes ++ [id]) := by
  obtain ⟨made, hnodes, hsorted, hmade⟩ := h.order
  have hnew (i : Nat) (n : NodeId) : (i = tokens.length ∧
      (builderBelow t kind tokens).tree.contains n = false ∧
      ((builderBelow t kind tokens).add token.1).tree.contains n = true) ↔
        (i, n) = (tokens.length, id) := by
    rw [hc, Prod.mk.injEq]
    constructor
    · rintro ⟨hi, hd, hl | hn⟩
      · rw [hd] at hl
        cases hl
      · exact ⟨hi, hn⟩
    · rintro ⟨hi, rfl⟩
      exact ⟨hi, hfresh, .inr rfl⟩
  have hself : MadeAt t kind (tokens ++ [token]) (0 + tokens.length) id :=
    madeAt_concat.2 (.inr ((hnew _ _).2 (by rw [Nat.zero_add])))
  refine ⟨⟨made ++ [(tokens.length, id)], by simp [hnodes], ?_, fun i n => ?_⟩, ?_⟩
  · refine List.pairwise_append.2 ⟨hsorted, List.pairwise_singleton _ _, fun m hm m' hm' => ?_⟩
    rw [List.mem_singleton.1 hm']
    exact ((hmade m.1 m.2).1 hm).2.lt_length
  · rw [List.mem_append, List.mem_singleton, hmade, madeAt_concat, hnew]
    simp
  · rw [List.drop_zero, tagsFrom_concat, List.filter_append]
    refine List.rel_append (h.elements_concat token hk) ?_
    obtain ⟨x, span⟩ := token
    generalize hkind : shown'.kind id = yielded at hy
    cases hy with
    | startTag tag foreign =>
      have hkeep : [id].filter (fun n => (shown'.kind n).isElement) = [id] := by
        simp [hkind, NodeKind.isElement]
      rw [hkeep]
      exact .cons ⟨hself, foreign, hkind⟩ .nil
    | _ =>
      have hdrop : [id].filter (fun n => (shown'.kind n).isElement) = [] := by
        simp [hkind, NodeKind.isElement]
      rw [hdrop]
      exact .nil

/-- What the first token makes, if it is a start tag, and what the others make. -/
theorem uncons {tag : StartTag} {span : Span}
    (h : InSourceOrder t kind ((.startTag tag, span) :: tokens) 0 shown nodes) :
    ∃ w rest, nodes = w :: rest ∧
      ElementOf t kind ((.startTag tag, span) :: tokens) shown (0, tag) w ∧
      InSourceOrder t kind ((.startTag tag, span) :: tokens) 1 shown rest := by
  obtain ⟨⟨made, rfl, hsorted, hmade⟩, helements⟩ := h
  obtain ⟨w, ws, hw, hws, hfilter⟩ := List.forall₂_cons_left_iff.1 helements
  have hzero : (0, w) ∈ made := (hmade 0 w).2 ⟨Nat.le_refl 0, hw.1⟩
  -- No token comes before the first one.
  obtain ⟨rest, rfl⟩ : ∃ rest, made = (0, w) :: rest := by
    cases made with
    | nil => cases hzero
    | cons m rest =>
      rcases List.mem_cons.1 hzero with rfl | hm
      · exact ⟨rest, rfl⟩
      · exact absurd ((List.pairwise_cons.1 hsorted).1 _ hm) (Nat.not_lt_zero _)
  obtain ⟨hlater, hsorted⟩ := List.pairwise_cons.1 hsorted
  have helement : (shown.kind w).isElement = true := by
    obtain ⟨-, foreign, hkind⟩ := hw
    rw [hkind]
    rfl
  refine ⟨w, rest.map Prod.snd, rfl, hw, ⟨rest, rfl, hsorted, fun i n => ?_⟩, ?_⟩
  · constructor
    · exact fun hm => ⟨hlater _ hm, ((hmade i n).1 (List.mem_cons_of_mem _ hm)).2⟩
    · rintro ⟨hi, hn⟩
      rcases List.mem_cons.1 ((hmade i n).2 ⟨Nat.zero_le i, hn⟩) with he | hm
      · exact absurd (congrArg Prod.fst he) (by omega)
      · exact hm
  · simp only [List.map_cons, List.filter_cons, helement, if_true, List.cons.injEq,
      true_and] at hfilter
    rw [hfilter]
    exact hws

end InSourceOrder

/-- The builder keeps the order: by induction on the tokens from the last one, since each puts its
node behind those of the tokens before it. -/
theorem draws_builderBelow (ht : t.Accounted) (kind : NodeKind) (tokens : List (Token × Span)) :
    ∃ d inner path, Draws (builderBelow t kind tokens) d inner path ∧
      InSourceOrder t kind tokens 0 (builderBelow t kind tokens).tree
        (labelsOfAll (enclose inner path)) := by
  induction tokens using List.reverseRecOn with
  | nil => exact ⟨_, _, _, draws_create ht kind, .nil⟩
  | append_singleton tokens token ih =>
    obtain ⟨d, inner, path, hd, horder⟩ := ih
    obtain ⟨inner', path', hd', hputs⟩ := hd.add token.1
    rw [builderBelow_concat]
    refine ⟨_, inner', path', hd', ?_⟩
    generalize labelsOfAll (enclose inner' path') = nodes' at hputs
    cases hputs with
    | nothing htag hc hk => exact horder.nothing htag hc fun n _ => hk n
    | node hy hfresh hc hk =>
      refine horder.node hy hfresh hc fun n hn => ?_
      rw [hk n (hd.stretch.holds.contains hn)]
      exact .same

theorem regular_builderBelow (ht : t.Accounted) (kind : NodeKind) (tokens : List (Token × Span)) :
    ∃ bs, Rooted.Regular ⟨(builderBelow t kind tokens).tree, (t.create kind).2⟩ bs ∧
      InSourceOrder t kind tokens 0 (builderBelow t kind tokens).tree (labelsOfAll bs) := by
  obtain ⟨d, inner, path, hd, horder⟩ := draws_builderBelow ht kind tokens
  have hroot : (builderBelow t kind tokens).root = (t.create kind).2 :=
    Builder.root_addAll { tree := (t.create kind).1, root := (t.create kind).2 } tokens
  exact ⟨_, ⟨hd.accounted, hroot ▸ hd.stretch, hroot ▸ hd.parent_root⟩, horder⟩

section Parsing

variable {markup : String}

theorem tokens_of_tokenize (h : tokenize markup = .ok tokens) :
    (Lexing.ofMarkup markup).errors = [] ∧ (Lexing.ofMarkup markup).tokens = tokens := by
  rw [tokenize] at h
  split at h
  · next hempty => exact ⟨List.isEmpty_iff.1 hempty, Except.ok.inj h⟩
  · cases h

theorem parseInto_of_tokenize (h : tokenize markup = .ok tokens) (t : Tree) (kind : NodeKind) :
    (parseInto (t.create kind).1 (t.create kind).2 markup).outcome =
      .ok (builderBelow t kind tokens).tree := by
  obtain ⟨herrors, htokens⟩ := tokens_of_tokenize h
  simp only [parseInto, herrors, htokens, List.isEmpty_nil, if_true]
  rfl

/-- The start tag that is put in front of SVG content. -/
def svgTag : StartTag := ⟨"svg", [], false⟩

theorem elementName_svgTag (foreign : Bool) :
    (svgTag.element foreign).elementName? = some "svg" := by
  cases foreign <;> decide +kernel

theorem tokens_wrapped (h : tokenize (svgOpen ++ markup ++ svgClose) = .ok tokens) :
    ∃ own, tokens = (.startTag svgTag, ⟨0, svgOpen.utf8ByteSize⟩) :: own := by
  obtain ⟨-, rfl⟩ := tokens_of_tokenize h
  rw [String.append_assoc, ofMarkup_svgOpen]
  exact ⟨_, rfl⟩

/-- The wrapper is the first node below the root, so that it is the one that is taken away. -/
theorem unwrapSvg_inSourceOrder {own : List (Token × Span)} {span : Span}
    {bs : List (Branch NodeId)} {r : Rooted} (hr : r.Regular bs)
    (h : InSourceOrder t kind ((.startTag svgTag, span) :: own) 0 r.tree (labelsOfAll bs)) :
    ∃ w cs, ElementOf t kind ((.startTag svgTag, span) :: own) r.tree (0, svgTag) w ∧
      r.unwrapSvg.Regular cs ∧ r.unwrapSvg.tree.contains w = false ∧
      InSourceOrder t kind ((.startTag svgTag, span) :: own) 1 r.unwrapSvg.tree
        (labelsOfAll cs) := by
  obtain ⟨w, rest, hnodes, hw, hown⟩ := h.uncons
  obtain ⟨kids, right, rfl⟩ : ∃ kids right, bs = .node w kids :: right := by
    cases bs with
    | nil => cases hnodes
    | cons b right =>
      obtain ⟨n, kids⟩ := b
      obtain rfl : n = w := (List.cons.inj hnodes).1
      exact ⟨kids, right, rfl⟩
  have hsvg : (r.tree.kind w).elementName? = some "svg" := by
    obtain ⟨-, foreign, hkind⟩ := hw
    rw [hkind]
    exact elementName_svgTag foreign
  have hfirst : r.Regular ([] ++ .node w kids :: right) := hr
  obtain ⟨hu, -, -, hk, hgone⟩ := hfirst.unwrapSvg_first hsvg (by simp)
  have hrest : labelsOfAll ([] ++ kids ++ right) = rest := by
    simpa using (List.cons.inj hnodes).2
  exact ⟨w, _, hw, hu, hgone, hrest ▸ hown.congr (hrest ▸ hk)⟩

end Parsing

/-- Pre-order is source order. Markup that tokenizes is built below a root created in any tree: in
pre-order the root is followed by the nodes that tokens make, in the order of these tokens, and the
n-th element among them is that of the n-th start tag. In SVG content, where the first start tag is
that of the wrapper, this is true of the other tokens, and the node that the first one makes is gone. -/
theorem preorder_of_tokenize :
    (∀ (t : Tree) (kind : NodeKind) (markup : String) (tokens : List (Token × Span)),
      t.Accounted → tokenize markup = .ok tokens →
      ∃ tree nodes, (parseInto (t.create kind).1 (t.create kind).2 markup).outcome = .ok tree ∧
        tree.preorder (t.create kind).2 = (t.create kind).2 :: nodes ∧
        ((t.create kind).2 :: nodes).Nodup ∧ InSourceOrder t kind tokens 0 tree nodes) ∧
    ∀ (markup : String) (tokens : List (Token × Span)),
      tokenize (svgOpen ++ markup ++ svgClose) = .ok tokens →
      ∃ r w nodes, (parseSvgFragment markup).outcome = .ok r ∧
        tokens.head? = some (.startTag svgTag, ⟨0, svgOpen.utf8ByteSize⟩) ∧
        MadeAt {} .fragment tokens 0 w ∧ r.tree.contains w = false ∧
        r.tree.preorder r.root = r.root :: nodes ∧ (r.root :: nodes).Nodup ∧
        InSourceOrder {} .fragment tokens 1 r.tree nodes := by
  refine ⟨fun t kind markup tokens ht h => ?_, fun markup tokens h => ?_⟩
  · obtain ⟨bs, hr, horder⟩ := regular_builderBelow ht kind tokens
    exact ⟨_, _, parseInto_of_tokenize h t kind, hr.preorder, by simpa using hr.nodup, horder⟩
  · obtain ⟨bs, hr, horder⟩ := regular_builderBelow Tree.linked_empty.accounted .fragment tokens
    have hparse : (parseSvgFragment markup).outcome = .ok (Rooted.unwrapSvg
        ⟨(builderBelow {} .fragment tokens).tree, (({} : Tree).create .fragment).2⟩) := by
      simp only [parseSvgFragment, parseFragment, parseRooted, parseInto_of_tokenize h]
      rfl
    obtain ⟨own, rfl⟩ := tokens_wrapped h
    obtain ⟨w, cs, hw, hu, hgone, hown⟩ := unwrapSvg_inSourceOrder hr horder
    exact ⟨_, w, _, hparse, rfl, hw.1, hgone, hu.preorder, by simpa using hu.nodup, hown⟩

/-- Elements that are closed in the wrong order, one that is never opened and one that is void, and a
text that goes on behind an end tag that closes nothing. -/
def misnested : String := "<p>a<br/>b<i>c</p>d</b>e<!--f--></i><hr>"

/-- A drawing that closes the wrapper itself. -/
def closingDrawing : String := "<g><circle/></svg>a<path></p>b</g>"

/-- A tree with a dead slot, which the next root takes. -/
def reused : Tree := ({} : Tree).edit [.create .fragment, .create (.text "x"), .remove ⟨0⟩]

theorem preorder_of_tokenize_misnested :
    let tokens := (Lexing.ofMarkup misnested).tokens
    let wrapped := (Lexing.ofMarkup (svgOpen ++ closingDrawing ++ svgClose)).tokens
    (reused.Accounted ∧ tokenize misnested = .ok tokens ∧
      ∃ tree nodes, (parseInto (reused.create .fragment).1 ⟨0⟩ misnested).outcome = .ok tree ∧
        tree.preorder ⟨0⟩ = ⟨0⟩ :: nodes ∧ InSourceOrder reused .fragment tokens 0 tree nodes) ∧
    tokenize (svgOpen ++ closingDrawing ++ svgClose) = .ok wrapped ∧
      ∃ r nodes, (parseSvgFragment closingDrawing).outcome = .ok r ∧
        r.tree.preorder r.root = r.root :: nodes ∧
        InSourceOrder {} .fragment wrapped 1 r.tree nodes := by
  intro tokens wrapped
  have hreused : reused.Accounted := Tree.accounted_edit _
  have hroot : (reused.create .fragment).2 = ⟨0⟩ := by cbv
  have htokens : tokenize misnested = .ok tokens := if_pos (by decide +kernel)
  have hwrapped : tokenize (svgOpen ++ closingDrawing ++ svgClose) = .ok wrapped :=
    if_pos (by decide +kernel)
  obtain ⟨tree, nodes, htree, hnodes, -, horder⟩ :=
    preorder_of_tokenize.1 reused .fragment misnested tokens hreused htokens
  obtain ⟨r, -, own, hr, -, -, -, hown, -, hinside⟩ :=
    preorder_of_tokenize.2 closingDrawing wrapped hwrapped
  rw [hroot] at htree hnodes
  exact ⟨⟨hreused, htokens, tree, nodes, htree, hnodes, horder⟩, hwrapped, r, own, hr, hown,
    hinside⟩

end LiveMarkup.Markup
