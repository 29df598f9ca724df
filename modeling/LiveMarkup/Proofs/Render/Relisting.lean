import LiveMarkup.Proofs.Render.Staying

set_option autoImplicit false

/-!
The items of a list that is there are given values. Items stand in the order in which they come: one
that was there is given its value in its own part, and a new one begins behind a new separator. An
item whose value says what its part carries stays as it is.
-/

namespace LiveMarkup

open Branch (labelsOfAll)
open LiveMarkup.Tree (Stretch)

/-- What came of a value that a part was given without an error. -/
inductive NodePart.Given (objects : Objects) (q : NodePart) (value : Value) :
    Applied NodePart → Prop
  | intro {known : Registry} {w : World} {p : NodeId} {before after : List NodeId}
    {f : List (Branch NodeId)} {s : Setting} (depth : Nat)
    (region : q.Region objects known false w p before after f)
    (deferreds : s.deferreds.Faithful objects) (faithful : value.Faithful objects)
    (succeeds : (Patch.within depth s w q value).error = none) :
    Given objects q value (Patch.within depth s w q value)

namespace NodePart

/-- A part came of giving a value to `q`, which left `g` in the region. Only the end of the part may
have moved since, and if there are results in the value, the cache has gone on from there to `c`. -/
def Came (part : NodePart) (objects : Objects) (c : TemplateCache) (q : NodePart) (value : Value)
    (g : List (Branch NodeId)) : Prop :=
  ∃ a, Given objects q value a ∧ part = a.part.withStop part.stop ∧
    a.world.tree.Fenced a.part.start a.part.stop g ∧
    (value.strings ≠ [] → a.world.cache.Extends c)

/-- A part is as a value that was given to `q` has left it: it came of that, and in its region are
the nodes that were there then. -/
def LeftBy (part : NodePart) (objects : Objects) (w : World) (q : NodePart) (value : Value) : Prop :=
  ∃ g, part.Came objects w.cache q value g ∧ w.tree.Fenced part.start part.stop g

/-- A value says what a part carries. -/
def Echoed (part : NodePart) (objects : Objects) (look : Look) (g : List (Branch NodeId))
    (value : Value) : Prop :=
  ∃ strict last, last.Faithful objects ∧ part.Carries look strict g last ∧ last.Echoes value

/-- The same part with the end elsewhere. -/
def Shifted (part part' : NodePart) : Prop := part' = part.withStop part'.stop

/-- What becomes of the items of a list that are given values: the parts and cells that there are
then, and which nodes are given up for them. -/
inductive Renewed (objects : Objects) (look : Look) (c : TemplateCache) (stop : NodeId) :
    List NodePart → Cells → List Value → List NodePart → Cells → List NodeId → Prop
  | done (qs : List NodePart) (left : Cells) : Renewed objects look c stop qs left [] [] [] []
  | item {q part : NodePart} {qs parts : List NodePart} {n : NodeId} {g g' : List (Branch NodeId)}
    {left new : Cells} {value : Value} {values : List Value} {lost gone : List NodeId}
    (came : part.Came objects c q value g') (lost_subset : lost ⊆ labelsOfAll g)
    (still : q.Echoed objects look g value → g' = g ∧ lost = [])
    (rest : Renewed objects look c stop qs left values parts new gone) :
    Renewed objects look c stop (q :: qs) ((n, g) :: left) (value :: values) (part :: parts)
      ((n, g') :: new) (lost ++ gone)
  | fresh {part : NodePart} {parts : List NodePart} {n : NodeId} {g : List (Branch NodeId)}
    {new : Cells} {value : Value} {values : List Value} {gone : List NodeId}
    (came : part.Came objects c (.mk n stop .empty) value g)
    (rest : Renewed objects look c stop [] [] values parts new gone) :
    Renewed objects look c stop [] [] (value :: values) (part :: parts) ((n, g) :: new) gone

/-- What giving values to the items of a list comes to: behind the parts `ps`, of which the last may
end elsewhere now, there are the parts `news` for the values. -/
structure Relisted (objects : Objects) (known : Registry) (look : Look) (w : World) (p : NodeId)
    (before after : List NodeId) (start stop : NodeId) (ps qs : List NodePart) (cells left : Cells)
    (values : List Value) (ps' news : List NodePart) (new : Cells) (gone : List NodeId)
    (f : List (Branch NodeId)) (a : Applied (List NodePart × List NodePart)) : Prop where
  listing : Listing objects known false a.world p before after start stop (ps' ++ news)
    (qs.drop values.length) (cells ++ new) (left.drop values.length) f
  part_eq : a.part = ((ps' ++ news).reverse, qs.drop values.length)
  extends_cache : w.cache.Extends a.world.cache
  shifted : List.Forall₂ Shifted ps ps'
  renewed : Renewed objects look a.world.cache stop qs left values news new gone
  fresh : ∀ c ∈ new.drop qs.length, w.tree.spared gone c.1 = false
  spares : w.tree.Spares a.world.tree gone

variable {objects : Objects} {known : Registry} {exact : Bool} {look : Look} {strict : Bool}
  {s : Setting} {w w' : World} {p : NodeId} {before after : List NodeId} {start stop : NodeId}
  {part q : NodePart} {f g : List (Branch NodeId)} {ps qs ps' news : List NodePart}
  {cells left new : Cells} {value : Value} {values : List Value} {gone lost : List NodeId}
  {kind : NodeId → NodeKind} {n : NodeId}

mutual

theorem withStop_self (part : NodePart) : part.withStop part.stop = part := by
  match part with
  | .mk start stop (.items parts) => rw [withStop, NodePart.stop, withLastStop_self]
  | .mk _ _ .empty | .mk _ _ (.text _) | .mk _ _ (.nested _ _) | .mk _ _ (.node _)
  | .mk _ _ (.pending _) => rfl

theorem withLastStop_self (parts : List NodePart) (old : NodeId) :
    withLastStop old old parts = parts := by
  match parts with
  | [] => rw [withLastStop]
  | [part] =>
    rw [withLastStop]
    split
    · rename_i h
      rw [← h, withStop_self]
    · rfl
  | part :: q :: parts => rw [withLastStop, withLastStop_self (q :: parts) old]

end

mutual

/-- Of two places that the end of a part is moved to, the second counts. -/
theorem Fits.withStop_withStop {part : NodePart} {f : List (Branch NodeId)}
    (h : part.Fits objects known kind exact f) (m n : NodeId) :
    (part.withStop m).withStop n = part.withStop n := by
  match part with
  | .mk start stop (.items parts) =>
    obtain ⟨cells, -, -, hcells⟩ := h
    rw [withStop, withStop, withStop, hcells.withLastStop_withLastStop]
  | .mk _ _ .empty | .mk _ _ (.text _) | .mk _ _ (.nested _ _) | .mk _ _ (.node _)
  | .mk _ _ (.pending _) => rfl

theorem FitsCells.withLastStop_withLastStop {old : NodeId} {parts : List NodePart} {cells : Cells}
    (h : FitsCells objects known kind exact old parts cells) (m n : NodeId) :
    NodePart.withLastStop m n (NodePart.withLastStop old m parts) =
      NodePart.withLastStop old n parts := by
  match parts with
  | [] => rw [NodePart.withLastStop, NodePart.withLastStop, NodePart.withLastStop]
  | [part] =>
    obtain ⟨_, _, rest, -, -, hstop, hfits, rfl⟩ := h
    have hold : part.stop = old := hstop
    rw [NodePart.withLastStop, NodePart.withLastStop, NodePart.withLastStop, if_pos hold,
      if_pos hold, if_pos (stop_withStop _ _), hfits.withStop_withStop]
  | part :: q :: parts =>
    obtain ⟨_, _, _, -, -, -, -, h⟩ := h
    have hrest := h.withLastStop_withLastStop m n
    obtain ⟨r, rs, hr⟩ : ∃ r rs, NodePart.withLastStop old m (q :: parts) = r :: rs := by
      cases parts <;> exact ⟨_, _, by rw [NodePart.withLastStop]⟩
    rw [NodePart.withLastStop, hr, NodePart.withLastStop, ← hr, hrest, NodePart.withLastStop]

end

namespace Shifted

theorem refl (part : NodePart) : part.Shifted part := (withStop_self part).symm

theorem refl_all (ps : List NodePart) : List.Forall₂ Shifted ps ps := by
  induction ps with
  | nil => exact .nil
  | cons part ps ih => exact .cons (refl part) ih

theorem start_eq {part' : NodePart} (h : part.Shifted part') : part'.start = part.start := by
  rw [h, start_withStop]

/-- The last of some parts is told apart. -/
theorem exists_last (h : List.Forall₂ Shifted (ps ++ [part]) ps') :
    ∃ front part', ps' = front ++ [part'] ∧ List.Forall₂ Shifted ps front ∧ part.Shifted part' := by
  induction ps generalizing ps' with
  | nil =>
    obtain ⟨part', rest, hlast, hnil, rfl⟩ := List.forall₂_cons_left_iff.1 h
    obtain rfl := List.forall₂_nil_left_iff.1 hnil
    exact ⟨[], part', rfl, .nil, hlast⟩
  | cons q ps ih =>
    obtain ⟨q', rest, hq, hrest, rfl⟩ := List.forall₂_cons_left_iff.1 h
    obtain ⟨front, part', rfl, hfront, hlast⟩ := ih hrest
    exact ⟨q' :: front, part', rfl, .cons hq hfront, hlast⟩

/-- A last part that says what is in its region is moved twice. -/
theorem of_withStop_last
    (hfits : FitsCells objects known kind exact stop (ps ++ [part]) cells)
    (h : List.Forall₂ Shifted (ps ++ [part.withStop n]) ps') :
    List.Forall₂ Shifted (ps ++ [part]) ps' := by
  obtain ⟨_, _, -, -, _, _, _, -, -, -, hlast, -⟩ := hfits.split
  obtain ⟨front, part', rfl, hfront, hmoved⟩ := exists_last h
  exact List.rel_append hfront (.cons (hmoved.trans (hlast.withStop_withStop n part'.stop)) .nil)

end Shifted

/-- A part that was given a value says what is in its region, and carries the value. -/
theorem Given.carries {a : Applied NodePart} (h : Given objects q value a) :
    value.Faithful objects ∧ ∃ known strict f, a.world.cache.Coherent objects known ∧
      a.world.tree.Fenced a.part.start a.part.stop f ∧
      a.part.Fits objects known a.world.tree.kind false f ∧
      ∀ look : Look, look.Covers objects a.world.cache → a.part.Carries look strict f value := by
  obtain ⟨depth, hregion, hds, hvalue, he⟩ := h
  obtain ⟨known', f', ho⟩ := hregion.outcome hds hvalue depth
  exact ⟨hvalue, known', _, f', ho.turned.region.coherent, ⟨_, _, _, ho.turned.region.stretch⟩,
    ho.turned.fits, ho.carries he⟩

/-- Where a part ends does not matter for what it came of. -/
theorem Came.shifted {c : TemplateCache} {part' : NodePart} (h : part.Came objects c q value g)
    (hmoved : part.Shifted part') : part'.Came objects c q value g := by
  obtain ⟨a, hgiven, hpart, hfenced, hextends⟩ := h
  obtain ⟨-, _, _, _, -, -, hfits, -⟩ := hgiven.carries
  refine ⟨a, hgiven, ?_, hfenced, hextends⟩
  rw [hpart] at hmoved
  exact hmoved.trans (hfits.withStop_withStop _ _)

namespace Renewed

variable {c : TemplateCache} {parts parts' : List NodePart} {i : Nat}

theorem length_eq (h : Renewed objects look c stop qs left values parts new gone) :
    parts.length = values.length := by
  induction h with
  | done => rfl
  | item _ _ _ _ ih | fresh _ _ ih => exact congrArg (· + 1) ih

/-- Where there are values, there is a last item. -/
theorem exists_last (h : Renewed objects look c stop qs left values parts new gone)
    (hne : values ≠ []) :
    ∃ (others : List NodePart) (last : NodePart), parts = others.reverse ++ [last] := by
  obtain ⟨front, last, hparts⟩ := (List.eq_nil_or_concat parts).resolve_left fun hnil => hne (by
    have hlength := h.length_eq
    rw [hnil] at hlength
    exact List.length_eq_zero_iff.1 hlength.symm)
  exact ⟨front.reverse, last, by rw [hparts, List.concat_eq_append, List.reverse_reverse]⟩

theorem shifted (h : Renewed objects look c stop qs left values parts new gone)
    (hmoved : List.Forall₂ Shifted parts parts') :
    Renewed objects look c stop qs left values parts' new gone := by
  induction h generalizing parts' with
  | done qs left =>
    obtain rfl := List.forall₂_nil_left_iff.1 hmoved
    exact .done qs left
  | item came lost_subset still _ ih =>
    obtain ⟨part', rest, hpart, hrest, rfl⟩ := List.forall₂_cons_left_iff.1 hmoved
    exact .item (came.shifted hpart) lost_subset still (ih hrest)
  | fresh came _ ih =>
    obtain ⟨part', rest, hpart, hrest, rfl⟩ := List.forall₂_cons_left_iff.1 hmoved
    exact .fresh (came.shifted hpart) (ih hrest)

/-- An item that stays begins where it began. -/
theorem exists_item (h : Renewed objects look c stop qs left values parts new gone)
    (hq : qs[i]? = some q) (hv : values[i]? = some value) :
    ∃ part n g g', parts[i]? = some part ∧ left[i]? = some (n, g) ∧ new[i]? = some (n, g') ∧
      part.Came objects c q value g' ∧ (q.Echoed objects look g value → g' = g) := by
  induction h generalizing i with
  | done => cases hv
  | @item q₁ part₁ _ _ n g g' _ _ value₁ _ _ _ came _ still _ ih =>
    cases i with
    | zero =>
      obtain rfl : q₁ = q := Option.some.inj hq
      obtain rfl : value₁ = value := Option.some.inj hv
      exact ⟨part₁, n, g, g', rfl, rfl, rfl, came, fun he => (still he).1⟩
    | succ i => exact ih hq hv
  | fresh => cases hq

theorem exists_fresh (h : Renewed objects look c stop qs left values parts new gone)
    (hi : qs.length ≤ i) (hv : values[i]? = some value) :
    ∃ part n g, parts[i]? = some part ∧ new[i]? = some (n, g) ∧
      part.Came objects c (.mk n stop .empty) value g := by
  induction h generalizing i with
  | done => cases hv
  | item _ _ _ _ ih =>
    cases i with
    | zero => simp at hi
    | succ i => exact ih (Nat.le_of_succ_le_succ hi) hv
  | @fresh part₁ _ n g _ value₁ _ _ came _ ih =>
    cases i with
    | zero =>
      obtain rfl : value₁ = value := Option.some.inj hv
      exact ⟨part₁, n, g, rfl, rfl, came⟩
    | succ i => exact ih (Nat.zero_le i) hv

/-- Nodes are only given up for values that do not say what their items carry. -/
theorem exists_of_mem_gone (h : Renewed objects look c stop qs left values parts new gone)
    (hn : n ∈ gone) :
    ∃ (i : Nat) (q : NodePart) (m : NodeId) (g : List (Branch NodeId)) (value : Value),
      qs[i]? = some q ∧ left[i]? = some (m, g) ∧ values[i]? = some value ∧ n ∈ labelsOfAll g ∧
        ¬ q.Echoed objects look g value := by
  induction h with
  | done => cases hn
  | @item q₁ _ _ _ m g _ _ _ value₁ _ _ _ _ lost_subset still _ ih =>
    rcases List.mem_append.1 hn with hn | hn
    · refine ⟨0, q₁, m, g, value₁, rfl, rfl, rfl, lost_subset hn, fun he => ?_⟩
      rw [(still he).2] at hn
      cases hn
    · obtain ⟨i, q, m, g, value, hq, hg, hv, hrest⟩ := ih hn
      exact ⟨i + 1, q, m, g, value, hq, hg, hv, hrest⟩
  | fresh _ _ ih =>
    obtain ⟨i, q, m, g, value, hq, -⟩ := ih hn
    cases hq

end Renewed

/-- What a part carries that a value has left as it is. -/
theorem LeftBy.echoed {last : Value} (h : part.LeftBy objects w q last)
    (hc : w.cache.Coherent objects known) (hfenced : w.tree.Fenced part.start part.stop g)
    (hechoes : last.Echoes value) : part.Echoed objects w.cache.get? g value := by
  obtain ⟨g', ⟨a, hgiven, hpart, hthere, hextends⟩, hnow⟩ := h
  obtain rfl := hfenced.unique hnow
  obtain ⟨hlast, known', strict, f, hc', hf, -, hcarries⟩ := hgiven.carries
  obtain rfl := hthere.unique hf
  have hcarried : a.part.Carries w.cache.get? strict g last := by
    by_cases hnone : last.strings = []
    · exact (hcarries a.world.cache.get? fun _ _ _ _ hg => hg).of_strings_nil hnone
    · exact hcarries w.cache.get?
        (Look.Covers.of_extends (fun _ _ _ _ hg => hg) (hextends hnone) hc' hc)
  refine ⟨strict, last, hlast, ?_, hechoes⟩
  rw [hpart]
  exact hcarried.withStop part.stop

/-- One item is given its value. What it gives up is in its region, and nothing if the value says
what it carries. -/
theorem Listing.renew {depth : Nat}
    (h : Listing objects known false w p before after start stop ps (q :: qs) cells ((n, g) :: left)
      f) (hlook : look.Within objects w.cache) (hs : s.deferreds.Faithful objects)
    (hvalue : value.Faithful objects) {a : Applied NodePart}
    (ha : Patch.within depth s w q value = a) (he : a.error = none) :
    ∃ known' g' f' lost,
      Listing objects known' false a.world p before after start stop (ps ++ [a.part]) qs
        (cells ++ [(n, g')]) left f' ∧
      Given objects q value a ∧ a.world.tree.Fenced a.part.start a.part.stop g' ∧
      w.cache.Extends a.world.cache ∧ w.tree.Spares a.world.tree lost ∧ lost ⊆ labelsOfAll g ∧
      (q.Echoed objects look g value → g' = g ∧ lost = []) := by
  subst ha
  obtain ⟨before', after', hregion, hback⟩ := h.focus
  obtain ⟨known', g', ho⟩ := hregion.outcome hs hvalue depth
  obtain ⟨f', -, hlisting, -⟩ := hback ho.turned
  have hfenced : (Patch.within depth s w q value).world.tree.Fenced
      (Patch.within depth s w q value).part.start (Patch.within depth s w q value).part.stop g' := by
    rw [ho.turned.start_eq, ho.turned.stop_eq]
    exact ⟨_, _, _, ho.turned.stretch⟩
  have hthere : w.tree.Fenced q.start q.stop g := ⟨_, _, _, hregion.stretch⟩
  have hextends := ho.turned.turns.extends_cache
  have hgiven : Given objects q value (Patch.within depth s w q value) :=
    .intro depth hregion hs hvalue he
  by_cases hechoed : q.Echoed objects look g value
  · obtain ⟨strict, last, hlast, hcarries, hechoes⟩ := hechoed
    have hstays := Patch.stays_within depth h.coherent hlook hthere hregion.fits.written hcarries
      hechoes hlast hvalue he
    have hsame : g' = g := by
      refine hfenced.unique ?_
      rw [ho.turned.start_eq, ho.turned.stop_eq]
      exact hthere.of_core hstays.core_eq
    exact ⟨known', g', f', [], hlisting, hgiven, hfenced, hextends, .of_core hstays.core_eq,
      List.nil_subset _, fun _ => ⟨hsame, rfl⟩⟩
  · exact ⟨known', g', f', labelsOfAll g, hlisting, hgiven, hfenced, hextends,
      .of_exchange hregion.stretch ho.turned.turns.exchange ho.turned.stretch, List.Subset.refl _,
      fun hn => absurd hn hechoed⟩

namespace Relisted

variable {a : Applied (List NodePart × List NodePart)} {b : Applied NodePart}
  {g' : List (Branch NodeId)}

/-- There are no more values. -/
theorem nil (h : Listing objects known false w p before after start stop ps qs cells left f) :
    Relisted objects known look w p before after start stop ps qs cells left [] ps [] [] [] f
      { part := (ps.reverse, qs), world := w } where
  listing := by simpa using h
  part_eq := by simp
  extends_cache := .refl _
  shifted := Shifted.refl_all ps
  renewed := .done qs left
  fresh c hc := by simp at hc
  spares := .refl _ _

/-- One item is given its value, and then the items behind it. -/
theorem item
    (h : Relisted objects known look b.world p before after start stop (ps ++ [b.part]) qs
      (cells ++ [(n, g')]) left values ps' news new gone f a)
    (hgiven : Given objects q value b) (hfenced : b.world.tree.Fenced b.part.start b.part.stop g')
    (hextends : w.cache.Extends b.world.cache) (hspares : w.tree.Spares b.world.tree lost)
    (hlost : lost ⊆ labelsOfAll g) (hstill : q.Echoed objects look g value → g' = g ∧ lost = []) :
    ∃ ps' news, Relisted objects known look w p before after start stop ps (q :: qs) cells
      ((n, g) :: left) (value :: values) ps' news ((n, g') :: new) (lost ++ gone) f a := by
  obtain ⟨front, part', rfl, hfront, hmoved⟩ := Shifted.exists_last h.shifted
  refine ⟨front, part' :: news, ?_, ?_, hextends.trans h.extends_cache, hfront,
    .item ⟨b, hgiven, hmoved, hfenced, fun _ => h.extends_cache⟩ hlost hstill h.renewed, fun c hc => ?_,
    hspares.trans h.spares⟩
  · have hlisting := h.listing
    rwa [← List.append_cons, ← List.append_cons] at hlisting
  · have hpart := h.part_eq
    rwa [← List.append_cons] at hpart
  · rw [Bool.eq_false_iff]
    intro hn
    have hnext := h.fresh c hc
    rw [hspares.spared_next hn] at hnext
    cases hnext

/-- A new item begins behind a new separator, where the last one ends now. -/
theorem another {known' : Registry}
    (h : Relisted objects known look w' p before after start stop (ps ++ [part.withStop n])
      [.mk n stop .empty] cells [(n, [])] (value :: values) ps' news new gone f a)
    (hdone : FitsCells objects known' kind exact stop (ps ++ [part]) cells)
    (hcache : w'.cache = w.cache) (hspares : w.tree.Spares w'.tree [])
    (hnew : w.tree.contains n = false) :
    Relisted objects known look w p before after start stop (ps ++ [part]) [] cells []
      (value :: values) ps' news new gone f a where
  listing := by simpa using h.listing
  part_eq := by simpa using h.part_eq
  extends_cache := hcache ▸ h.extends_cache
  shifted := Shifted.of_withStop_last hdone h.shifted
  renewed := by
    cases h.renewed with
    | item came lost_subset still rest =>
      obtain rfl := List.subset_nil.1 lost_subset
      exact .fresh came rest
  fresh c hc := by
    obtain ⟨g', rest, rfl⟩ : ∃ g' rest, new = (n, g') :: rest := by
      cases h.renewed with
      | item came lost_subset still rest => exact ⟨_, _, rfl⟩
    rw [Bool.eq_false_iff]
    intro hn
    rcases List.mem_cons.1 hc with rfl | hc
    · rw [(Tree.spared_iff.1 hn).1] at hnew
      cases hnew
    · have hnext := h.fresh c hc
      rw [hspares.spared_next hn] at hnext
      cases hnext
  spares := by simpa using hspares.trans h.spares

end Relisted

/-- A new separator takes nothing's place. -/
theorem Listing.spares_another
    (h : Listing objects known exact w p before after start stop ps [] cells [] f) {tree : Tree}
    (hcreate : w.tree.create (.text "") = (tree, n))
    (ht : w'.tree = (tree.insertBefore stop n).1) :
    w.tree.Spares w'.tree [] ∧ w.tree.contains n = false := by
  have hg := h.accounted.grows_create (.text "")
  rw [hcreate] at hg
  have hend : Stretch w.tree p (before ++ [start] ++ f.map Branch.label) [] (stop :: after) := by
    have hst := h.stretch
    rw [← List.append_nil f, ← List.append_nil (f ++ [])] at hst
    exact hst.narrow
  obtain ⟨hx, hs, -⟩ := hend.insert hg
  exact ⟨ht ▸ .of_exchange hend hx hs, hg.fresh n (by simp)⟩

/-- The items of a list that is there are given values, in new parts where there are more values. -/
theorem Listing.relisted {depth : Nat}
    (h : Listing objects known false w p before after start stop ps qs cells left f)
    (hthere : ps ≠ [] ∨ qs ≠ []) (hlook : look.Within objects w.cache)
    (hs : s.deferreds.Faithful objects) (hvalues : ∀ v ∈ values, v.Faithful objects)
    (start' : NodeId) {a : Applied (List NodePart × List NodePart)}
    (ha : Patch.items (.within depth) s start' stop w ps.reverse qs values = a)
    (he : a.error = none) :
    ∃ known' ps' news new gone f', Relisted objects known' look w p before after start stop ps qs
      cells left values ps' news new gone f' a := by
  induction values generalizing known w ps qs cells left f start' with
  | nil =>
    have heq : Patch.items (.within depth) s start' stop w ps.reverse qs [] =
        { part := (ps.reverse, qs), world := w } := by cases qs <;> rw [Patch.items]
    rw [← ha, heq]
    exact ⟨known, ps, [], [], [], f, .nil h⟩
  | cons value values ih =>
    obtain ⟨hvalue, hvalues⟩ := List.forall_mem_cons.1 hvalues
    -- One item in a part that is there.
    have hstep {known : Registry} {w : World} {ps qs : List NodePart} {part : NodePart}
        {cells left : Cells} {n : NodeId} {g f : List (Branch NodeId)} (holding : Setting)
        (start' : NodeId)
        (h : Listing objects known false w p before after start stop ps (part :: qs) cells
          ((n, g) :: left) f)
        (hlook : look.Within objects w.cache) (hds : holding.deferreds = s.deferreds)
        (ha : Patch.itemsFrom (.within depth) s holding start' stop w ps.reverse part qs value
          values = a) :
        ∃ known' ps' news new gone f', Relisted objects known' look w p before after start stop ps
          (part :: qs) cells ((n, g) :: left) (value :: values) ps' news new gone f' a := by
      obtain ⟨b, hb⟩ : ∃ b, Patch.within depth holding w part value = b := ⟨_, rfl⟩
      obtain ⟨hnone, heq⟩ := Patch.itemsFrom_succeeds (ha ▸ he)
      rw [hb] at hnone heq
      obtain ⟨known₁, g', f₁, lost, hlisting, hgiven, hfenced, hextends, hspares, hlost, hstill⟩ :=
        h.renew hlook (hds ▸ hs) hvalue hb hnone
      rw [← List.reverse_concat] at heq
      obtain ⟨known', ps', news, new, gone, f', hrest⟩ := ih hlisting (.inl (by simp))
        (hlook.of_extends hextends h.coherent hlisting.coherent) hvalues start' (heq ▸ ha)
      obtain ⟨ps', news, hall⟩ := hrest.item hgiven hfenced hextends hspares hlost hstill
      exact ⟨known', ps', news, _, _, f', hall⟩
    cases qs with
    | cons part qs =>
      obtain ⟨n, g, rest, rfl, -⟩ := h.waiting
      rw [Patch.items_cons] at ha
      exact hstep (s.holding (values ++ heldByAll ps.reverse ++ heldByAll qs)) start' h hlook rfl ha
    | nil =>
      obtain rfl : left = [] := h.waiting
      obtain ⟨front, last, rfl⟩ := List.eq_nil_or_concat ps |>.resolve_left
        (hthere.resolve_right fun hn => hn rfl)
      rw [List.concat_eq_append] at h ha ⊢
      rw [List.reverse_append, List.reverse_singleton, List.singleton_append] at ha
      obtain ⟨tree, n, w₁, holding, hcreate, htree, hcache, hds, -, heq⟩ :=
        Patch.items_another (.within depth) s start' stop w last front.reverse value values
      obtain ⟨-, hlisting, -⟩ := h.another hcreate htree hcache
      obtain ⟨hspares, hnew⟩ := h.spares_another hcreate htree
      obtain ⟨known', ps', news, new, gone, f', hall⟩ := hstep holding n hlisting (hcache ▸ hlook)
        hds (by rw [← ha, heq, List.reverse_append, List.reverse_singleton, List.singleton_append])
      exact ⟨known', ps', news, new, gone, f', hall.another h.done hcache hspares hnew⟩

end NodePart

end LiveMarkup
