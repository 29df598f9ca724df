import LiveMarkup.Proofs.Part.Outcome

set_option autoImplicit false

/-!
Lists in a region. The items stand one behind the other, each behind the node that it begins after,
and the last ends where the list ends. One item can be brought in step as if it were alone; a new
item begins behind an empty text that is put in front of the end of the list.
-/

namespace LiveMarkup

open Branch (labelsOfAll mapAll)
open LiveMarkup.Tree (Exchange Stretch)

variable {forecast : Forecast} {objects : Objects} {known known' : Registry} {exact : Bool}
  {w w' : World} {p : NodeId} {before after : List NodeId} {start stop : NodeId} {kind : NodeId → NodeKind}
  {f g : List (Branch NodeId)} {ps qs : List NodePart} {part : NodePart}

namespace Cells

/-- One cell of a list that begins at `start`, set apart. -/
theorem exists_split {cells rest : Cells} {n : NodeId}
    (h : branches (cells ++ (n, g) :: rest) = .node start [] :: f) :
    ∃ left, f = left ++ g ++ branches rest ∧
      (∀ g', branches (cells ++ (n, g') :: rest) = .node start [] :: (left ++ g' ++ branches rest)) ∧
      ∀ before : List NodeId, ∃ before',
        before ++ [start] ++ left.map Branch.label = before' ++ [n] := by
  match cells with
  | [] =>
    rw [List.nil_append, branches_cons] at h
    injection h with hn hf
    injection hn with hn
    obtain rfl : n = start := hn
    exact ⟨[], hf.symm, fun _ => rfl, fun before => ⟨before, by simp⟩⟩
  | (m, k) :: cells =>
    rw [List.cons_append, branches_cons] at h
    injection h with hm hf
    injection hm with hm
    obtain rfl : m = start := hm
    refine ⟨k ++ branches cells ++ [.node n []], ?_, fun g' => by simp, fun before => ?_⟩
    · rw [← hf]
      simp
    · exact ⟨before ++ [m] ++ (k ++ branches cells).map Branch.label, by simp [Branch.label]⟩

theorem mem_content {cells : Cells} (h : branches cells = .node start [] :: f)
    {c : NodeId × List (Branch NodeId)} (hc : c ∈ cells) {n : NodeId} (hn : n ∈ labelsOfAll c.2) :
    n ∈ labelsOfAll f := by
  obtain ⟨a, b, rfl⟩ := List.append_of_mem hc
  obtain ⟨m, g⟩ := c
  obtain ⟨l, rfl, -⟩ := exists_split h
  simp [show n ∈ labelsOfAll g from hn]

theorem mem_tail {cells : Cells} (h : branches cells = .node start [] :: f) {n : NodeId}
    (hn : n ∈ (cells.map Prod.fst).tail) : n ∈ labelsOfAll f := by
  obtain ⟨g, rest, rfl, rfl⟩ := eq_cons h
  obtain ⟨c, hc, rfl⟩ := List.mem_map.1 (show n ∈ rest.map Prod.fst from hn)
  simp [mem_branches.2 ⟨c, hc, List.mem_cons_self⟩]

/-- What comes behind a cell. -/
theorem exists_after (rest : Cells) (stop : NodeId) (after : List NodeId) :
    ∃ after', (branches rest).map Branch.label ++ stop :: after = Cells.start stop rest :: after' := by
  match rest with
  | [] => exact ⟨after, rfl⟩
  | (n, g) :: rest => exact ⟨_, rfl⟩

/-- What is in the cells is kept. -/
def Kept (w w' : World) (cells : Cells) : Prop :=
  ∀ c ∈ cells, ∀ n ∈ labelsOfAll c.2, w'.tree.kind n = w.tree.kind n

theorem Kept.trans {w'' : World} {cells : Cells} (h : Kept w w' cells) (h' : Kept w' w'' cells) :
    Kept w w'' cells :=
  fun c hc n hn => (h' c hc n hn).trans (h c hc n hn)

theorem Kept.left {cells cells' : Cells} (h : Kept w w' (cells ++ cells')) : Kept w w' cells :=
  fun c hc => h c (List.mem_append_left _ hc)

theorem Kept.right {cells cells' : Cells} (h : Kept w w' (cells ++ cells')) : Kept w w' cells' :=
  fun c hc => h c (List.mem_append_right _ hc)

end Cells

namespace NodePart

mutual

/-- Where a region ends does not matter for what is in it. -/
theorem Fits.withStop {part : NodePart} {f : List (Branch NodeId)}
    (h : part.Fits objects known kind exact f) (stop : NodeId) :
    (part.withStop stop).Fits objects known kind exact f := by
  match part with
  | .mk _ _ (.items parts) =>
    obtain ⟨cells, hf, htexts, hcells⟩ := h
    rw [NodePart.withStop]
    exact ⟨cells, hf, htexts, hcells.withLastStop stop⟩
  | .mk _ _ .empty | .mk _ _ (.pending _) => trivial
  | .mk _ _ (.text _) | .mk _ _ (.nested _ _) | .mk _ _ (.node _) => exact h

theorem FitsCells.withLastStop {old : NodeId} {parts : List NodePart} {cells : Cells}
    (h : FitsCells objects known kind exact old parts cells) (stop : NodeId) :
    FitsCells objects known kind exact stop (NodePart.withLastStop old stop parts) cells := by
  match parts with
  | [] =>
    rw [NodePart.withLastStop]
    exact h
  | [part] =>
    obtain ⟨n, f, rest, rfl, hstart, hstop, hf, rfl⟩ := h
    have hold : part.stop = old := hstop
    rw [NodePart.withLastStop, if_pos hold]
    exact ⟨n, f, [], rfl, by rw [start_withStop, hstart], stop_withStop _ _, hf.withStop stop, rfl⟩
  | part :: q :: ps =>
    obtain ⟨n, f, rest, rfl, hstart, hstop, hf, hrest⟩ := h
    rw [NodePart.withLastStop]
    refine ⟨n, f, rest, rfl, hstart, ?_, hf, hrest.withLastStop stop⟩
    obtain ⟨m, g, rest, rfl, -⟩ := hrest
    exact hstop

end

mutual

/-- Nor does it matter for what the region will show. -/
theorem Reads.withStop {part : NodePart} {f : List (Branch NodeId)} {bs : List (Branch NodeKind)}
    (h : part.Reads forecast objects known kind exact f bs) (stop : NodeId) :
    (part.withStop stop).Reads forecast objects known kind exact f bs := by
  match part with
  | .mk _ _ (.items parts) =>
    obtain ⟨cells, bss, hf, htexts, hcells, hread, rfl⟩ := h
    rw [NodePart.withStop]
    exact ⟨cells, bss, hf, htexts, hcells.withLastStop stop, hread.withLastStop _ stop, rfl⟩
  | .mk _ _ .empty | .mk _ _ (.pending _) | .mk _ _ (.text _) | .mk _ _ (.nested _ _)
  | .mk _ _ (.node _) => exact h

theorem ReadsCells.withLastStop {parts : List NodePart} {cells : Cells}
    {bss : List (List (Branch NodeKind))}
    (h : ReadsCells forecast objects known kind exact parts cells bss) (old stop : NodeId) :
    ReadsCells forecast objects known kind exact (NodePart.withLastStop old stop parts) cells
      bss := by
  match parts with
  | [] =>
    rw [NodePart.withLastStop]
    exact h
  | [part] =>
    obtain ⟨n, f, rest, bs, others, rfl, rfl, hp, h⟩ := h
    rw [NodePart.withLastStop]
    refine ⟨n, f, rest, bs, others, rfl, rfl, ?_, h⟩
    split
    · exact hp.withStop stop
    · exact hp
  | part :: q :: ps =>
    obtain ⟨n, f, rest, bs, others, rfl, rfl, hp, h⟩ := h
    rw [NodePart.withLastStop]
    exact ⟨n, f, rest, bs, others, rfl, rfl, hp, h.withLastStop old stop⟩

end

/-- The last item ends elsewhere. -/
theorem ReadsCells.withStop_last {cells : Cells} {bss : List (List (Branch NodeKind))}
    (h : ReadsCells forecast objects known kind exact (ps ++ [part]) cells bss) (stop : NodeId) :
    ReadsCells forecast objects known kind exact (ps ++ [part.withStop stop]) cells bss := by
  obtain ⟨left, right, bss₁, bss₂, rfl, rfl, hleft, n, f, rest, bs, others, rfl, rfl, hp, hnil⟩ :=
    h.split
  exact hleft.append ⟨n, f, rest, bs, others, rfl, rfl, hp.withStop stop, hnil⟩

namespace FitsCells

theorem append {cells cells' : Cells}
    (h : FitsCells objects known kind exact (Cells.start stop cells') ps cells)
    (h' : FitsCells objects known kind exact stop qs cells') :
    FitsCells objects known kind exact stop (ps ++ qs) (cells ++ cells') := by
  induction ps generalizing cells with
  | nil =>
    obtain rfl : cells = [] := h
    exact h'
  | cons part ps ih =>
    obtain ⟨n, f, rest, rfl, hstart, hstop, hf, h⟩ := h
    exact ⟨n, f, rest ++ cells', rfl, hstart, by rw [Cells.start_append, hstop], hf, ih h⟩

theorem split {cells : Cells} (h : FitsCells objects known kind exact stop (ps ++ qs) cells) :
    ∃ left right, cells = left ++ right ∧
      FitsCells objects known kind exact (Cells.start stop right) ps left ∧
      FitsCells objects known kind exact stop qs right := by
  induction ps generalizing cells with
  | nil => exact ⟨[], cells, rfl, rfl, h⟩
  | cons part ps ih =>
    obtain ⟨n, f, rest, rfl, hstart, hstop, hf, h⟩ := h
    obtain ⟨left, right, rfl, hleft, hright⟩ := ih h
    exact ⟨(n, f) :: left, right, rfl,
      ⟨n, f, left, rfl, hstart, by rw [hstop, Cells.start_append], hf, hleft⟩, hright⟩

theorem length_eq {cells : Cells} (h : FitsCells objects known kind exact stop ps cells) :
    ps.length = cells.length :=
  h.placedAll.length_eq

/-- The last item ends elsewhere. -/
theorem withStop_last {cells : Cells}
    (h : FitsCells objects known kind exact stop (ps ++ [part]) cells) (stop' : NodeId) :
    FitsCells objects known kind exact stop' (ps ++ [part.withStop stop']) cells := by
  obtain ⟨left, right, rfl, hleft, n, f, rest, rfl, hstart, -, hf, rfl⟩ := h.split
  have hlast : FitsCells objects known kind exact stop' [part.withStop stop'] [(n, f)] :=
    ⟨n, f, [], rfl, by rw [start_withStop, hstart], stop_withStop _ _, hf.withStop stop', rfl⟩
  exact append hleft hlast

end FitsCells

/-- A list while its items are being brought in step: `ps` have theirs, `qs` are left. -/
structure Listing (objects : Objects) (known : Registry) (exact : Bool) (w : World) (p : NodeId)
    (before after : List NodeId) (start stop : NodeId) (ps qs : List NodePart)
    (cells left : Cells) (f : List (Branch NodeId)) : Prop where
  coherent : w.cache.Coherent objects known
  accounted : w.tree.Accounted
  textLeaves : w.tree.TextLeaves
  stretch : Stretch w.tree p (before ++ [start]) f (stop :: after)
  laid : cells ++ left = [] ∧ f = [] ∨ (cells ++ left).branches = .node start [] :: f
  texts : ∀ n ∈ ((cells ++ left).map Prod.fst).tail, w.tree.kind n = .text ""
  done : FitsCells objects known w.tree.kind exact (Cells.start stop left) ps cells
  waiting : FitsCells objects known w.tree.kind exact stop qs left

namespace Listing

variable {cells left : Cells}

/-- The next item, set apart. -/
theorem focus {n : NodeId} {rest : Cells}
    (h : Listing objects known exact w p before after start stop ps (part :: qs) cells
      ((n, g) :: rest) f) :
    ∃ before' after', part.Region objects known exact w p before' after' g ∧
      ∀ {known' w' part' g'},
        Turned objects known known' exact w w' p before' after' part part' g g' →
        ∃ f', World.Turns objects known known' w w' p (labelsOfAll f) (labelsOfAll f') ∧
          Listing objects known' exact w' p before after start stop (ps ++ [part']) qs
            (cells ++ [(n, g')]) rest f' ∧
          Cells.Kept w w' (cells ++ rest) := by
  obtain ⟨n', g', rest', heq, hstart, hstop, hfits, hwaiting⟩ := h.waiting
  obtain ⟨hcell, rfl⟩ := List.cons.inj heq
  obtain ⟨rfl, rfl⟩ := Prod.mk.inj hcell
  have hlaid := h.laid.resolve_left (by simp)
  obtain ⟨l, rfl, hfill, hbefore⟩ := Cells.exists_split hlaid
  obtain ⟨before', hb⟩ := hbefore before
  obtain ⟨after', ha⟩ := Cells.exists_after rest stop after
  have hnarrow := h.stretch.narrow
  rw [hb, ha, ← hstart, ← hstop] at hnarrow
  refine ⟨before', after', ⟨h.coherent, h.accounted, h.textLeaves, hnarrow, hfits⟩, ?_⟩
  intro known' w' part' g' ht
  obtain ⟨hx, hs⟩ := h.stretch.widen ht.turns.exchange (by
    rw [hb, ha, ← hstart, ← hstop]
    exact ht.stretch)
  -- Nodes of the list outside the item stay what they are.
  have hnodup := h.stretch.nodup_labels
  have hkind {m : NodeId} (hm : m ∈ labelsOfAll (l ++ [] ++ Cells.branches rest)) :
      w'.tree.kind m = w.tree.kind m := by
    simp only [List.append_nil, Branch.labelsOfAll_append, List.append_assoc, List.mem_append]
      at hm hnodup
    refine ht.turns.kind_eq (h.stretch.holds.contains ?_) fun hg => ?_
    · rcases hm with hm | hm <;> simp [hm]
    · obtain ⟨-, hright, hdis⟩ := List.nodup_append.1 hnodup
      rcases hm with hm | hm
      · exact hdis m hm m (List.mem_append_left _ hg) rfl
      · exact (List.nodup_append.1 hright).2.2 m hg m hm rfl
  have hkept : Cells.Kept w w' (cells ++ rest) := by
    intro c hc m hm
    refine hkind (Cells.mem_content (hfill []) (c := c) ?_ hm)
    rcases List.mem_append.1 hc with hc | hc
    · exact List.mem_append_left _ hc
    · exact List.mem_append_right _ (List.mem_cons_of_mem _ hc)
  have hmono := ht.turns.grown.1
  refine ⟨_, ⟨ht.turns.grown, ht.turns.coherent, ht.turns.extends_cache, hx, ht.turns.textLeaves⟩,
    ⟨ht.turns.coherent, hx.accounted, ht.turns.textLeaves, hs, .inr (by simpa using hfill g'),
      fun m hm => ?_, ?_, ?_⟩, hkept⟩
  · have hm' : m ∈ ((cells ++ (n, []) :: rest).map Prod.fst).tail := by simpa using hm
    rw [hkind (Cells.mem_tail (hfill []) hm')]
    exact h.texts m (by simpa using hm)
  · refine FitsCells.append (h.done.mono hmono hkept.left id)
      ⟨n, g', [], rfl, ht.start_eq.trans hstart, ht.stop_eq.trans hstop, ht.fits, rfl⟩
  · exact hwaiting.mono hmono hkept.right id

/-- The first item of a list begins where the list does. -/
theorem first (h : Listing objects known exact w p before after start stop [] [] cells [] f) :
    Listing objects known exact w p before after start stop [] [.mk start stop .empty] cells
      [(start, [])] f := by
  obtain rfl : cells = [] := h.done
  have hf : f = [] := by
    rcases h.laid with ⟨-, hf⟩ | hlaid
    · exact hf
    · simp at hlaid
  subst hf
  exact ⟨h.coherent, h.accounted, h.textLeaves, h.stretch, .inr rfl, by simp, rfl,
    ⟨start, [], [], rfl, rfl, rfl, trivial, rfl⟩⟩

/-- Another item begins behind an empty text at the end of the list. -/
theorem another
    (h : Listing objects known exact w p before after start stop (ps ++ [part]) [] cells [] f)
    {tree : Tree} {n : NodeId} (hcreate : w.tree.create (.text "") = (tree, n))
    (ht : w'.tree = (tree.insertBefore stop n).1) (hc : w'.cache = w.cache) :
    World.Turns objects known known w w' p (labelsOfAll f) (labelsOfAll (f ++ [.node n []])) ∧
      Listing objects known exact w' p before after start stop (ps ++ [part.withStop n])
        [.mk n stop .empty] cells [(n, [])] (f ++ [.node n []]) ∧
      Cells.Kept w w' cells := by
  have hg := h.accounted.grows_create (.text "")
  have hk := h.accounted.kind_create (.text "")
  rw [hcreate] at hg hk
  obtain ⟨hx, hs, hkinds⟩ := h.stretch.insert hg
  have hlaid : cells.branches = .node start [] :: f := by
    have hlaid := h.laid
    rw [List.append_nil] at hlaid
    refine hlaid.resolve_left fun hnil => ?_
    have hlength := h.done.length_eq
    rw [hnil.1] at hlength
    simp at hlength
  have hkeep {m : NodeId} (hm : m ∈ labelsOfAll f) : w'.tree.kind m = w.tree.kind m := by
    rw [ht]
    exact (hkinds m).trans (Tree.kind_of_core (hg.core m (h.stretch.holds.contains hm)))
  have hkept : Cells.Kept w w' cells := fun c hc m hm => hkeep (Cells.mem_content hlaid hc hm)
  have hl : w'.tree.TextLeaves := by
    rw [ht]
    refine h.textLeaves.exchange hx hs (h.stretch.owner_not_text h.textLeaves) ?_
    rw [Branch.mapAll_append, Branch.leavesAll_append]
    refine ⟨?_, by simp⟩
    rw [Branch.mapAll_congr fun m hm => (ht ▸ hkeep hm : _ = w.tree.kind m)]
    exact h.stretch.holds.leaves_iff.2 fun m hm => h.textLeaves m (h.stretch.holds.contains hm)
  refine ⟨.of_exchange h.coherent hc (ht ▸ hx) hl, ⟨hc ▸ h.coherent, ht ▸ hx.accounted, hl,
    ht ▸ hs, .inr (by simp [hlaid]), fun m hm => ?_, ?_, ?_⟩, hkept⟩
  · obtain ⟨g, rest, rfl, rfl⟩ := Cells.eq_cons hlaid
    rw [List.map_append, List.map_cons, List.cons_append, List.tail_cons, List.mem_append] at hm
    rcases hm with hm | hm
    · rw [hkeep (Cells.mem_tail hlaid hm)]
      exact h.texts m (by simpa using hm)
    · obtain rfl : m = n := by simpa using hm
      rw [ht]
      exact (hkinds m).trans hk
  · exact (h.done.mono (Registry.le_refl known) hkept id).withStop_last n
  · exact ⟨n, [], [], rfl, rfl, rfl, trivial, rfl⟩

end Listing

/-- What bringing the items of a list in step comes to: the items of `values` are in the cells
`new`, behind those of the parts `ps` that were done before. -/
structure Listed (objects : Objects) (known known' : Registry) (exact blank strict : Bool)
    (ds : Deferreds) (depth : Nat) (w : World) (p : NodeId) (before after : List NodeId)
    (start stop : NodeId) (ps : List NodePart) (cells new left : Cells) (f f' : List (Branch NodeId))
    (values : List Value) (a : Applied (List NodePart × List NodePart)) : Prop where
  turns : World.Turns objects known known' w a.world p (labelsOfAll f) (labelsOfAll f')
  listing : Listing objects known' exact a.world p before after start stop a.part.1.reverse a.part.2
    (cells ++ new) left f'
  kept : Cells.Kept w a.world cells
  length : a.error = none → new.length = values.length
  nonempty : a.error ≠ none → a.part.1 ≠ []
  reads : a.error = none → (∀ v ∈ values, v.Plain blank ds) → ∀ (look : Look) (forecast : Forecast),
    look.Agrees objects a.world.cache → (∀ v ∈ values, v.Foreseeable forecast) →
    ∃ bss, (Value.foreseeAll look strict forecast values).mapM Meaning.branches = some bss ∧
      ∀ read, ReadsCells forecast objects known w.tree.kind exact ps cells read →
        ReadsCells forecast objects known' a.world.tree.kind exact a.part.1.reverse (cells ++ new)
          (read ++ bss)
  succeeds : (∀ v ∈ values, v.Reached depth) → (∀ v ∈ values, v.Outstanding ds) →
    ∀ look : Look, look.Yields objects w.cache →
    (Value.meanings look strict values).mapM Meaning.branches ≠ none → a.error = none
  carries : a.error = none → ∀ look : Look, look.Covers objects a.world.cache → ∀ vs,
    CarriesAll look strict ps cells vs →
    CarriesAll look strict a.part.1.reverse (cells ++ new) (vs ++ values)

variable {blank strict : Bool} {ds : Deferreds} {depth : Nat} {cells left new : Cells}
  {value : Value} {values : List Value} {start' : NodeId}

/-- There are no more items. -/
theorem Listed.nil
    (h : Listing objects known exact w p before after start stop ps qs cells left f) :
    Listed objects known known exact blank strict ds depth w p before after start stop ps cells [] left
      f f [] { part := (ps.reverse, qs), world := w } where
  turns := .of_exchange h.coherent rfl (.refl h.accounted p _) h.textLeaves
  listing := by simpa using h
  kept _ _ _ _ := rfl
  length _ := rfl
  nonempty he := absurd rfl he
  reads _ _ _ _ _ _ := ⟨[], rfl, fun read hread => by simpa using hread⟩
  succeeds _ _ _ _ _ := rfl
  carries _ _ _ vs hcarries := by simpa using hcarries

/-- One item is brought in step, and then the items behind it. -/
theorem Listed.cons {known₁ known₂ : Registry} {w₁ : World} {f₁ f₂ : List (Branch NodeId)}
    {n : NodeId} {a : Applied NodePart} {rest : Applied (List NodePart × List NodePart)}
    {before' after' : List NodeId}
    (h : Listed objects known₁ known₂ exact blank strict ds depth w₁ p before after start stop
      (ps ++ [a.part]) (cells ++ [(n, g)]) new left f₁ f₂ values rest)
    (hw₁ : w₁.cache.Coherent objects known₁)
    (hturns : World.Turns objects known known₁ w w₁ p (labelsOfAll f) (labelsOfAll f₁))
    (hkept : Cells.Kept w w₁ cells) {v : World} {q : NodePart} {k : List (Branch NodeId)}
    (hworld : a.world = w₁)
    (ho : Outcome objects known known₁ exact blank strict ds depth v p before' after' q k g value a)
    (he : a.error = none) :
    Listed objects known known₂ exact blank strict ds depth w p before after start stop ps cells
      ((n, g) :: new) left f f₂ (value :: values) rest where
  turns := hturns.trans h.turns
  listing := by
    have hl := h.listing
    rwa [List.append_assoc] at hl
  kept := hkept.trans fun c hc => h.kept c (List.mem_append_left _ hc)
  length hn := congrArg (· + 1) (h.length hn)
  nonempty := h.nonempty
  reads hn hplain look forecast hlook hforesee := by
    obtain ⟨hvalue, hvalues⟩ := List.forall_mem_cons.1 hplain
    obtain ⟨hvalue', hvalues'⟩ := List.forall_mem_cons.1 hforesee
    obtain ⟨bss, hbss, hread⟩ := h.reads hn hvalues look forecast hlook hvalues'
    obtain ⟨bs, hbs, hfirst⟩ := ho.reads he hvalue look forecast
      (hworld ▸ hlook.of_extends h.turns.extends_cache hw₁ h.turns.coherent) hvalue'
    refine ⟨bs :: bss, ?_, fun read hdone => ?_⟩
    · simp [Value.foreseeAll, List.mapM_cons, hbs, hbss]
    · have hall := hread _ ((hdone.mono hturns.grown.1 hkept).snoc (hworld ▸ hfirst))
      rwa [← List.append_cons, ← List.append_cons] at hall
  succeeds hr hout look hlook hne := by
    refine h.succeeds (List.forall_mem_cons.1 hr).2 (List.forall_mem_cons.1 hout).2 look
      (hlook.of_extends hturns.extends_cache) fun hn => hne ?_
    cases hd : value.denote look strict <;> simp [Value.meanings, List.mapM_cons, hn, hd]
  carries hn look hlook vs hdone := by
    have hfirst := ho.carries he look
      (hworld ▸ hlook.of_extends h.turns.extends_cache hw₁ h.turns.coherent)
    have hall := h.carries hn look hlook _ (hdone.snoc hfirst)
    rwa [← List.append_cons, ← List.append_cons] at hall

/-- One item could not be brought in step, and the items behind it are left as they are. -/
theorem Listed.failed {known₁ : Registry} {f₁ : List (Branch NodeId)} {n : NodeId}
    {a : Applied NodePart} {e : RenderError} {before' after' : List NodeId} {o : NodeId}
    {q : NodePart} {k : List (Branch NodeId)}
    (hturns : World.Turns objects known known₁ w a.world p (labelsOfAll f) (labelsOfAll f₁))
    (h : Listing objects known₁ exact a.world p before after start stop (ps ++ [a.part]) qs
      (cells ++ [(n, g)]) left f₁)
    (hkept : Cells.Kept w a.world cells)
    (ho : Outcome objects known known₁ exact blank strict ds depth w o before' after' q k g value a)
    (he : a.error = some e) :
    Listed objects known known₁ exact blank strict ds depth w p before after start stop ps cells
      [(n, g)] left f f₁ (value :: values) (a.map fun part => (part :: ps.reverse, qs)) where
  turns := hturns
  listing := by simpa [Applied.map] using h
  kept := hkept
  length hn := by simp [Applied.map, he] at hn
  nonempty _ := by simp [Applied.map]
  reads hn := by simp [Applied.map, he] at hn
  succeeds hr hout look hlook hne := by
    refine ho.succeeds (List.forall_mem_cons.1 hr).1 (List.forall_mem_cons.1 hout).1 look hlook
      fun hn => hne ?_
    simp [Value.meanings, List.mapM_cons, hn]
  carries hn := by simp [Applied.map, he] at hn

/-- A new item begins where the last one ends now. -/
theorem Listed.another {w₁ : World} {f₁ f₂ : List (Branch NodeId)} {known₁ : Registry} {n : NodeId}
    {front : List NodePart} {last : NodePart} {a : Applied (List NodePart × List NodePart)}
    (hturns : World.Turns objects known known w w₁ p (labelsOfAll f) (labelsOfAll f₁))
    (hcache : w₁.cache = w.cache) (hkept : Cells.Kept w w₁ cells)
    (h : Listed objects known known₁ exact blank strict ds depth w₁ p before after start stop
      (front ++ [last.withStop n]) cells new left f₁ f₂ values a) :
    Listed objects known known₁ exact blank strict ds depth w p before after start stop
      (front ++ [last]) cells new left f f₂ values a where
  turns := hturns.trans h.turns
  listing := h.listing
  kept := hkept.trans h.kept
  length := h.length
  nonempty := h.nonempty
  reads he hplain look forecast hlook hforesee := by
    obtain ⟨bss, hbss, hread⟩ := h.reads he hplain look forecast hlook hforesee
    exact ⟨bss, hbss, fun read hdone => hread read
      ((hdone.mono (Registry.le_refl known) hkept).withStop_last n)⟩
  succeeds hr hout look hlook := h.succeeds hr hout look (hcache ▸ hlook)
  carries he look hlook vs hdone := h.carries he look hlook vs (hdone.withStop_last n)

end NodePart

namespace Patch

open NodePart (Listing Listed)

variable {blank strict : Bool} {ds : Deferreds} {depth : Nat} {cells left : Cells} {value : Value}
  {values : List Value} {start' : NodeId} {patch : Patch} {s holding : Setting}

/-- Gives an item its part, and then the items behind it. -/
def itemsFrom (patch : Patch) (s holding : Setting) (start stop : NodeId) (w : World)
    (done : List NodePart) (part : NodePart) (left : List NodePart) (value : Value)
    (values : List Value) : Applied (List NodePart × List NodePart) :=
  let applied := patch holding w part value
  match applied.error with
  | some _ => applied.map fun p => (p :: done, left)
  | none => items patch s start stop applied.world (applied.part :: done) left values

theorem items_cons (patch : Patch) (s : Setting) (start stop : NodeId) (w : World)
    (done : List NodePart) (part : NodePart) (left : List NodePart) (value : Value)
    (values : List Value) :
    items patch s start stop w done (part :: left) (value :: values) =
      itemsFrom patch s (s.holding (values ++ NodePart.heldByAll done ++ NodePart.heldByAll left))
        start stop w done part left value values := by
  rw [items]
  rfl

/-- If an item and those behind it are given their values without an error, so is the item. -/
theorem itemsFrom_succeeds {start stop : NodeId} {done left : List NodePart}
    (he : (itemsFrom patch s holding start stop w done part left value values).error = none) :
    (patch holding w part value).error = none ∧
      itemsFrom patch s holding start stop w done part left value values =
        items patch s start stop (patch holding w part value).world
          ((patch holding w part value).part :: done) left values := by
  rw [itemsFrom] at he ⊢
  cases herror : (patch holding w part value).error with
  | some e => simp [herror, Applied.map] at he
  | none => exact ⟨rfl, rfl⟩

/-- The state in which a new item is given its part. -/
theorem items_another (patch : Patch) (s : Setting) (start stop : NodeId) (w : World)
    (last : NodePart) (done : List NodePart) (value : Value) (values : List Value) :
    ∃ (tree : Tree) (n : NodeId) (w₁ : World) (holding : Setting),
      w.tree.create (.text "") = (tree, n) ∧ w₁.tree = (tree.insertBefore stop n).1 ∧
      w₁.cache = w.cache ∧ holding.deferreds = s.deferreds ∧
      holding.strictValueCount = s.strictValueCount ∧
      items patch s start stop w (last :: done) [] (value :: values) =
        itemsFrom patch s holding n stop w₁ (last.withStop n :: done) (.mk n stop .empty) [] value
          values := by
  obtain ⟨tree, n, hcreate⟩ : ∃ tree n, w.tree.create (.text "") = (tree, n) := ⟨_, _, rfl⟩
  refine ⟨tree, n, w.withTree (tree.insertBefore stop n).1,
    s.holding (values ++ NodePart.heldByAll (last.withStop n :: done)), hcreate, rfl, rfl, rfl, rfl, ?_⟩
  rw [items, hcreate]
  rfl

theorem Correct.items (hp : patch.Correct objects exact strict ds depth) (hds : s.deferreds = ds)
    (hstrict : s.strictValueCount = strict)
    (h : Listing objects known exact w p before after start stop ps qs cells left f)
    (start' : NodeId) (hstart : ps = [] → start' = start) (hvalues : ∀ v ∈ values, v.Faithful objects)
    (blank : Bool) (hnew : exact = true ∨ blank = true → qs = []) :
    ∃ known' new left' f', Listed objects known known' exact blank strict ds depth w p before after
      start stop ps cells new left' f f' values
      (Patch.items patch s start' stop w ps.reverse qs values) := by
  induction values generalizing known w ps qs cells left f start' with
  | nil =>
    have heq : Patch.items patch s start' stop w ps.reverse qs [] =
        { part := (ps.reverse, qs), world := w } := by cases qs <;> rw [Patch.items]
    rw [heq]
    exact ⟨known, [], left, f, .nil h⟩
  | cons value values ih =>
    obtain ⟨hvalue, hvalues⟩ := List.forall_mem_cons.1 hvalues
    -- One item in a part that is there.
    have hstep {known : Registry} {w : World} {ps qs : List NodePart} {part : NodePart}
        {left : Cells} {f : List (Branch NodeId)} {holding : Setting} (start' : NodeId)
        (h : Listing objects known exact w p before after start stop ps (part :: qs) cells left f)
        (hready : ∀ c ∈ left.head?, part.Ready exact blank c.2)
        (hnew : exact = true ∨ blank = true → qs = [])
        (hds' : holding.deferreds = ds) (hstrict' : holding.strictValueCount = strict) :
        ∃ known' new left' f', Listed objects known known' exact blank strict ds depth w p before
          after start stop ps cells new left' f f' (value :: values)
          (itemsFrom patch s holding start' stop w ps.reverse part qs value values) := by
      obtain ⟨n, g, rest, rfl, -⟩ := h.waiting
      obtain ⟨before', after', hregion, hback⟩ := h.focus
      obtain ⟨known₁, g', ho⟩ := hp hds' hstrict' hregion hvalue blank (hready _ rfl)
      obtain ⟨f₁, hturns, hlisting, hkept⟩ := hback ho.turned
      replace hkept := hkept.left
      obtain ⟨a, ha⟩ : ∃ a, a = patch holding w part value := ⟨_, rfl⟩
      rw [← ha] at ho hturns hlisting hkept
      cases herror : a.error with
      | some e =>
        have heq : itemsFrom patch s holding start' stop w ps.reverse part qs value values =
            a.map fun p => (p :: ps.reverse, qs) := by simp only [itemsFrom, ← ha, herror]
        rw [heq]
        exact ⟨known₁, [(n, g')], rest, f₁, .failed hturns hlisting hkept ho herror⟩
      | none =>
        have heq : itemsFrom patch s holding start' stop w ps.reverse part qs value values =
            Patch.items patch s start' stop a.world (ps ++ [a.part]).reverse qs values := by
          simp [itemsFrom, ← ha, herror]
        obtain ⟨known₂, new, left', f₂, hl⟩ := ih hlisting start' (by simp) hvalues hnew
        rw [heq]
        exact ⟨known₂, (n, g') :: new, left', f₂,
          hl.cons hlisting.coherent hturns hkept rfl ho herror⟩
    cases qs with
    | cons part qs =>
      have hold {P : Prop} (he : exact = true ∨ blank = true) : P :=
        absurd (hnew he) (List.cons_ne_nil _ _)
      exact hstep start' h (fun _ _ => ⟨fun he => hold (.inl he), fun he => hold (.inr he)⟩) hold
        hds hstrict
    | nil =>
      obtain rfl : left = [] := h.waiting
      rcases List.eq_nil_or_concat ps with rfl | ⟨front, last, rfl⟩
      · obtain rfl := hstart rfl
        refine hstep _ h.first (fun c hc => ?_) (fun _ => rfl) hds hstrict
        obtain rfl := Option.some.inj hc
        exact ⟨fun _ => NodePart.bare_of_empty rfl, fun _ => ⟨rfl, rfl⟩⟩
      · rw [List.concat_eq_append] at h ⊢
        rw [List.reverse_append, List.reverse_singleton, List.singleton_append]
        obtain ⟨tree, n, w₁, holding, hcreate, htree, hcache, hds', hstrict', heq⟩ :=
          items_another patch s start' stop w last front.reverse value values
        obtain ⟨hturns, hlisting, hkept⟩ := h.another hcreate htree hcache
        rw [heq]
        have hblank : ∀ c ∈ ([(n, [])] : Cells).head?,
            (NodePart.mk n stop .empty).Ready exact blank c.2 := fun c hc => by
          obtain rfl := Option.some.inj hc
          exact ⟨fun _ => NodePart.bare_of_empty rfl, fun _ => ⟨rfl, rfl⟩⟩
        obtain ⟨known', new, left', f', hl⟩ := hstep n hlisting hblank (fun _ => rfl)
          (hds'.trans hds) (hstrict'.trans hstrict)
        rw [List.reverse_append, List.reverse_singleton, List.singleton_append] at hl
        exact ⟨known', new, left', f', .another hturns hcache hkept hl⟩

/-- A list whose items were brought in step. -/
def finish (part : NodePart) (a : Applied (List NodePart × List NodePart)) : Applied NodePart :=
  let (done, left) := a.part
  match a.error, done with
  | some _, _ => a.map fun _ => part.withState (.items (done.reverse ++ left))
  | none, [] =>
    { part := part.withState .empty, world := a.world.withTree (part.clear a.world.tree) }
  | none, last :: others =>
    if left.isEmpty then a.map fun _ => part.withState (.items done.reverse)
    else
      let w := a.world.report (.droppedItems left.length)
      { part := part.withState (.items (others.reverse ++ [last.withStop part.stop]))
        world := w.withTree (w.tree.removeRange last.stop part.stop).1 }

theorem error_finish (part : NodePart) (a : Applied (List NodePart × List NodePart)) :
    (finish part a).error = a.error := by
  obtain ⟨⟨done, left⟩, u, error⟩ := a
  cases error with
  | some e => rfl
  | none =>
    cases done with
    | nil => rfl
    | cons last others =>
      simp only [finish]
      split <;> rfl

theorem iterable_items {ps : List NodePart} (patch : Patch) (s : Setting) (w : World)
    (hstate : part.state = .items ps) (values : List Value) :
    iterable patch s w part values =
      finish part (items patch s part.start part.stop w [] ps values) := by
  simp only [iterable, hstate]
  rfl

theorem iterable_other (patch : Patch) (s : Setting) (w : World)
    (hstate : ∀ ps, part.state ≠ .items ps) (values : List Value) :
    iterable patch s w part values =
      finish part (items patch s part.start part.stop (w.withTree (part.clear w.tree)) [] []
        values) := by
  cases hp : part.state with
  | items ps => exact absurd hp (hstate ps)
  | _ =>
    simp only [iterable, hp]
    rfl

end Patch

namespace NodePart

variable {blank strict : Bool} {ds : Deferreds} {depth : Nat} {new left : Cells}
  {values : List Value} {patch : Patch} {s : Setting}

theorem fits_items (hp : part.state = .items ps) :
    part.Fits objects known kind exact f ↔ ∃ cells : Cells,
      cells.branches = .node part.start [] :: f ∧ (∀ c ∈ cells.tail, kind c.1 = .text "") ∧
        FitsCells objects known kind exact part.stop ps cells := by
  rw [part.eq_mk, hp]
  rfl

theorem fits_withState_items {cells : Cells} (hf : cells.branches = .node part.start [] :: f)
    (ht : ∀ n ∈ (cells.map Prod.fst).tail, kind n = .text "")
    (hc : FitsCells objects known kind exact part.stop ps cells) :
    (part.withState (.items ps)).Fits objects known kind exact f :=
  ⟨cells, hf, fun c hm => ht c.1 (by
    rw [← List.map_tail]
    exact List.mem_map_of_mem hm), hc⟩

theorem carries_withState_items {look : Look} {strict : Bool} {cells : Cells}
    (hf : cells.branches = .node part.start [] :: f) (hp : PlacedAll part.stop ps cells)
    (hc : CarriesAll look strict ps cells values) :
    (part.withState (.items ps)).Carries look strict f (.iterable values) :=
  ⟨cells, hf, hp, hc⟩

theorem reads_withState_items {cells : Cells} {bss : List (List (Branch NodeKind))}
    (hf : cells.branches = .node part.start [] :: f)
    (ht : ∀ n ∈ (cells.map Prod.fst).tail, kind n = .text "")
    (hc : FitsCells objects known kind exact part.stop ps cells)
    (hread : ReadsCells forecast objects known kind exact ps cells bss) :
    (part.withState (.items ps)).Reads forecast objects known kind exact f
      (Branch.separated bss) :=
  ⟨cells, bss, hf, fun c hm => ht c.1 (by
    rw [← List.map_tail]
    exact List.mem_map_of_mem hm), hc, hread, rfl⟩

/-- The parts that are left over are dropped with their items. -/
theorem Listing.drop {others : List NodePart} {last q : NodePart} {cells : Cells}
    (h : Listing objects known exact w p before after part.start part.stop (others ++ [last])
      (q :: qs) cells left f) :
    ∃ f', Exchange w.tree (w.tree.removeRange last.stop part.stop).1 p (labelsOfAll f)
        (labelsOfAll f') ∧
      Stretch (w.tree.removeRange last.stop part.stop).1 p (before ++ [part.start]) f'
        (part.stop :: after) ∧
      (w.tree.removeRange last.stop part.stop).1.TextLeaves ∧
      cells.branches = .node part.start [] :: f' ∧
      ∀ n ∈ labelsOfAll f', (w.tree.removeRange last.stop part.stop).1.kind n = w.tree.kind n := by
  obtain ⟨n, g, rest, rfl, -⟩ := h.waiting
  obtain ⟨front, back, rfl, -, m, k, rest', hback, -, hlast, -, hnil⟩ := h.done.split
  obtain rfl : rest' = [] := hnil
  subst hback
  replace hlast : last.stop = n := hlast
  have hlaid := h.laid.resolve_left (by simp)
  rw [Cells.branches_append] at hlaid
  obtain ⟨f', hf'⟩ : ∃ f', Cells.branches (front ++ [(m, k)]) = .node part.start [] :: f' := by
    cases front with
    | nil =>
      rw [List.nil_append, Cells.branches_cons, List.cons_append] at hlaid
      exact ⟨_, congrArg (· :: _) (List.cons.inj hlaid).1⟩
    | cons c front =>
      rw [List.cons_append, Cells.branches_cons, List.cons_append] at hlaid
      exact ⟨_, congrArg (· :: _) (List.cons.inj hlaid).1⟩
  rw [hf', Cells.branches_cons, List.cons_append] at hlaid
  obtain rfl := (List.cons.inj hlaid).2
  obtain ⟨hx, hs, hk⟩ := h.stretch.cut h.accounted
  have hlabel : (Branch.node n ([] : List (Branch NodeId))).label = last.stop := hlast.symm
  rw [hlabel] at hx hs hk
  have hkind : ∀ n ∈ labelsOfAll f',
      (w.tree.removeRange last.stop part.stop).1.kind n = w.tree.kind n :=
    fun n hn => Tree.kind_of_core (hk n hn)
  refine ⟨f', hx, hs, h.textLeaves.exchange hx hs (h.stretch.owner_not_text h.textLeaves) ?_, hf',
    hkind⟩
  rw [Branch.mapAll_congr hkind]
  have hholds := (Tree.holdsAll_append.1 h.stretch.holds).1
  exact hholds.leaves_iff.2 fun n hn => h.textLeaves n (hholds.contains hn)

/-- A list whose items can all be shown is shown without an error. -/
theorem Listed.succeeds_iterable {v : World} {cells : Cells} {f' : List (Branch NodeId)}
    {a : Applied (List NodePart × List NodePart)}
    (h : Listed objects known known' exact blank strict ds depth v p before after start stop ps cells
      new left f f' values a)
    (hr : (Value.iterable values).Reached (depth + 1)) (ho : (Value.iterable values).Outstanding ds)
    {look : Look} (hl : look.Yields objects v.cache)
    (hne : (Value.iterable values).denote look strict ≠ none) : a.error = none := by
  have hweight : Value.weights values < depth := by
    rcases hr with hlt | ⟨hnull, -⟩
    · simpa [Value.weight] using hlt
    · cases hnull
  refine h.succeeds
    (fun v hm => .inl (lt_of_le_of_lt (Value.weight_le_weights hm) hweight))
    (fun v hm => Value.outstanding_of_mem ho hm) look hl fun hn => hne ?_
  rw [Value.denote, hn]
  rfl

/-- A list without items is emptied. -/
theorem Listing.vanish
    (h : Listing objects known exact w p before after part.start part.stop [] qs [] left f) :
    World.Turns objects known known w (w.withTree (part.clear w.tree)) p (labelsOfAll f)
        (labelsOfAll []) ∧
      Stretch (part.clear w.tree) p (before ++ [part.start]) [] (part.stop :: after) := by
  obtain ⟨hx, hs⟩ := h.stretch.clear h.accounted
  have hl := h.textLeaves.exchange (g := []) hx hs (h.stretch.owner_not_text h.textLeaves) trivial
  exact ⟨.of_exchange h.coherent rfl hx hl, hs⟩

/-- A list with items ends with the last of them. -/
theorem Listing.finish {others : List NodePart} {last : NodePart} {a : Applied NodePart}
    (h : Listing objects known exact w p before after part.start part.stop
      (others.reverse ++ [last]) qs new left f)
    (ha : Patch.finish part { part := (last :: others, qs), world := w } = a) :
    ∃ f' ps', World.Turns objects known known w a.world p (labelsOfAll f) (labelsOfAll f') ∧
      Stretch a.world.tree p (before ++ [part.start]) f' (part.stop :: after) ∧
      a.part = part.withState (.items ps') ∧ a.world.cache = w.cache ∧
      new.branches = .node part.start [] :: f' ∧
      (∀ n ∈ (new.map Prod.fst).tail, a.world.tree.kind n = .text "") ∧
      FitsCells objects known a.world.tree.kind exact part.stop ps' new ∧
      (∀ forecast bss,
        ReadsCells forecast objects known w.tree.kind exact (others.reverse ++ [last]) new bss →
        ReadsCells forecast objects known a.world.tree.kind exact ps' new bss) ∧
      ∀ look strict vs, CarriesAll look strict (others.reverse ++ [last]) new vs →
        CarriesAll look strict ps' new vs := by
  subst ha
  have hne : new ≠ [] := fun hnil => by
    have hlength := h.done.length_eq
    simp [hnil] at hlength
  cases qs with
  | nil =>
    obtain rfl : left = [] := h.waiting
    have hlaid := h.laid
    have htexts := h.texts
    rw [List.append_nil] at hlaid htexts
    replace hlaid := hlaid.resolve_left fun hnil => hne hnil.1
    refine ⟨f, others.reverse ++ [last],
      .of_exchange h.coherent rfl (.refl h.accounted p _) h.textLeaves, h.stretch, ?_, rfl, hlaid,
      htexts, h.done, fun _ _ hread => hread, fun _ _ _ hcarries => hcarries⟩
    rw [← List.reverse_cons]
    rfl
  | cons q qs =>
    obtain ⟨f', hx, hs, hl, hlaid, hkind⟩ := h.drop
    have hcells : ∀ c ∈ new, ∀ n ∈ labelsOfAll c.2,
        (w.tree.removeRange last.stop part.stop).1.kind n = w.tree.kind n := fun c hc n hn =>
      hkind n (Cells.mem_content hlaid hc hn)
    refine ⟨f', others.reverse ++ [last.withStop part.stop],
      .of_exchange h.coherent rfl hx hl, hs, rfl, rfl, hlaid, fun n hn => ?_,
      (h.done.mono (Registry.le_refl known) hcells id).withStop_last part.stop,
      fun _ _ hread => (hread.mono (Registry.le_refl known) hcells).withStop_last part.stop,
      fun _ _ _ hcarries => hcarries.withStop_last part.stop⟩
    refine (hkind n (Cells.mem_tail hlaid hn)).trans (h.texts n ?_)
    obtain ⟨c, new, rfl⟩ := List.exists_cons_of_ne_nil hne
    simp only [List.cons_append, List.map_cons, List.tail_cons, List.map_append,
      List.mem_append] at hn ⊢
    exact .inl hn

/-- What showing a list comes to. -/
theorem Listed.finish {known₁ : Registry} {v : World} {f₁ f' : List (Branch NodeId)}
    {a : Applied (List NodePart × List NodePart)}
    (h : Listed objects known known₁ exact blank strict ds depth v p before after part.start part.stop
      [] [] new left f₁ f' values a)
    (hturns : World.Turns objects known known w v p (labelsOfAll f) (labelsOfAll f₁)) :
    ∃ f'', Outcome objects known known₁ exact blank strict ds (depth + 1) w p before after part f f''
      (.iterable values) (Patch.finish part a) := by
  obtain ⟨⟨done, qs⟩, u, error⟩ := a
  have hall := hturns.trans h.turns
  have hlisting := h.listing
  rw [List.nil_append] at hlisting
  cases error with
  | some e =>
    have hnew : new ++ left ≠ [] := fun hnil => by
      have hlength := hlisting.done.length_eq
      rw [(List.append_eq_nil_iff.1 hnil).1] at hlength
      exact h.nonempty (by simp) (by simpa using hlength)
    have hfits := fits_withState_items (hlisting.laid.resolve_left fun hnil => hnew hnil.1)
      hlisting.texts (hlisting.done.append hlisting.waiting)
    refine ⟨f', ⟨hall, hlisting.stretch, rfl, rfl, hfits⟩, fun he => (by cases he),
      fun hr ho look hl hne => ?_, fun he => by cases he⟩
    have hnone := h.succeeds_iterable hr ho (hl.of_extends hturns.extends_cache) hne
    cases hnone
  | none =>
    cases done with
    | nil =>
      obtain rfl : new = [] := hlisting.done
      obtain rfl : values = [] := List.length_eq_zero_iff.1 (h.length rfl).symm
      obtain ⟨hturn, hs⟩ := hlisting.vanish
      exact ⟨[], ⟨hall.trans hturn, hs, rfl, rfl, trivial⟩,
        fun _ _ _ _ _ _ => ⟨[], by simp [Value.foresee, Value.foreseeAll, Branch.separated], rfl⟩,
        fun _ _ _ _ _ => rfl, fun _ _ _ => ⟨rfl, rfl⟩⟩
    | cons last others =>
      rw [List.reverse_cons] at hlisting
      obtain ⟨f'', ps', hturn, hs, hpart, hcache, hlaid, htexts, hcells, hread, hcarries⟩ :=
        hlisting.finish rfl
      refine ⟨f'', ⟨hall.trans hturn, hs, by rw [hpart]; rfl, by rw [hpart]; rfl, ?_⟩,
        fun _ hplain look forecast hlook hforesee => ?_, fun _ _ _ _ _ => ?_, fun _ look hlook => ?_⟩
      · rw [hpart]
        exact fits_withState_items hlaid htexts hcells
      · obtain ⟨bss, hbss, hreads⟩ := h.reads rfl
          (fun v hm => Value.plain_of_mem hplain.1 hplain.2 hm) look forecast (hcache ▸ hlook)
          (fun v hm d hd => hforesee d (Value.deferreds_of_mem hm hd))
        refine ⟨Branch.separated bss, by rw [Value.foresee, hbss]; rfl, ?_⟩
        rw [hpart]
        refine reads_withState_items hlaid htexts hcells (hread forecast bss ?_)
        simpa using hreads [] ⟨rfl, rfl⟩
      · simp only [Patch.finish, Applied.map]
        split <;> rfl
      · have hall := h.carries rfl look (hcache ▸ hlook) [] ⟨rfl, rfl⟩
        rw [List.reverse_cons] at hall
        rw [hpart]
        exact carries_withState_items hlaid hcells.placedAll (hcarries look strict _ hall)

/-- A list is shown in the parts of the one that is there or in new ones. -/
theorem Region.iterable (h : part.Region objects known exact w p before after f)
    (hp : patch.Correct objects exact strict ds depth) (hds : s.deferreds = ds)
    (hstrict : s.strictValueCount = strict) (hvalues : ∀ v ∈ values, v.Faithful objects)
    (hready : part.Ready exact blank f) :
    ∃ known' f', Outcome objects known known' exact blank strict ds (depth + 1) w p before after part f
      f' (.iterable values) (Patch.iterable patch s w part values) := by
  by_cases hstate : ∃ ps, part.state = .items ps
  · obtain ⟨ps, hstate⟩ := hstate
    obtain ⟨cells, hlaid, htexts, hcells⟩ := (fits_items hstate).1 h.fits
    have hlisting : Listing objects known exact w p before after part.start part.stop [] ps [] cells
        f :=
      ⟨h.coherent, h.accounted, h.textLeaves, h.stretch, .inr hlaid, Cells.texts_tail htexts, rfl,
        hcells⟩
    have hold : exact = true ∨ blank = true → ps = [] := by
      rintro (he | he)
      · exact absurd hstate ((hready.bare he).2 ps)
      · rw [(hready.empty he).1] at hstate
        cases hstate
    obtain ⟨known', new, left, f', hl⟩ := hp.items hds hstrict hlisting
      part.start (fun _ => rfl) hvalues blank hold
    obtain ⟨f'', ho⟩ := hl.finish (.of_exchange h.coherent rfl (.refl h.accounted p _) h.textLeaves)
    rw [Patch.iterable_items patch s w hstate]
    exact ⟨known', f'', ho⟩
  · obtain ⟨hx, hs, hl⟩ := h.clear
    have hlisting : Listing objects known exact (w.withTree (part.clear w.tree)) p before after
        part.start part.stop [] [] [] [] [] :=
      ⟨h.coherent, hx.accounted, hl, hs, .inl ⟨rfl, rfl⟩, by simp, rfl, rfl⟩
    obtain ⟨known', new, left, f', hl'⟩ := hp.items hds hstrict hlisting
      part.start (fun _ => rfl) hvalues blank fun _ => rfl
    obtain ⟨f'', ho⟩ := hl'.finish (.of_exchange h.coherent rfl hx hl)
    rw [Patch.iterable_other patch s w fun ps hp => hstate ⟨ps, hp⟩]
    exact ⟨known', f'', ho⟩

end NodePart

end LiveMarkup
