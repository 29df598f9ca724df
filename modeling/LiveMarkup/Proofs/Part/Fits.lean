import LiveMarkup.Proofs.Part.Attribute
import LiveMarkup.Proofs.Template.Keeping
import LiveMarkup.Proofs.Template.Pattern
import LiveMarkup.Proofs.Value.Denotation

set_option autoImplicit false

/-!
When the branches in a region are what the part of the region says. A text is one text node; a copy
of a template is the template's pattern with nodes in place of its numbers, and the parts of the
copy stand where the template has them; a list is its items, each ending where the next begins. A
part that is empty or waits says nothing. What a part says only depends on the nodes of its region.
-/

namespace LiveMarkup

open Branch (labelsOfAll mapAll)

/-- Items behind the nodes that they begin after. -/
abbrev Cells := List (NodeId × List (Branch NodeId))

namespace Cells

/-- Every beginning followed by its item. -/
def branches (cells : Cells) : List (Branch NodeId) := cells.flatMap fun c => .node c.1 [] :: c.2

/-- Where the first cell begins, or else `stop`. -/
def start (stop : NodeId) (cells : Cells) : NodeId := (cells.head?.map Prod.fst).getD stop

@[simp] theorem branches_nil : branches [] = [] := rfl

@[simp] theorem branches_cons (c : NodeId × List (Branch NodeId)) (cells : Cells) :
    branches (c :: cells) = .node c.1 [] :: (c.2 ++ branches cells) := rfl

@[simp] theorem branches_append (cells cells' : Cells) :
    branches (cells ++ cells') = branches cells ++ branches cells' := List.flatMap_append

theorem start_append (cells cells' : Cells) (stop : NodeId) :
    Cells.start stop (cells ++ cells') = Cells.start (Cells.start stop cells') cells := by
  cases cells <;> rfl

theorem eq_cons {cells : Cells} {start : NodeId} {f : List (Branch NodeId)}
    (h : branches cells = .node start [] :: f) :
    ∃ g rest, cells = (start, g) :: rest ∧ f = g ++ branches rest := by
  match cells with
  | (n, g) :: rest =>
    rw [branches_cons] at h
    injection h with hn hf
    injection hn with hn
    obtain rfl : n = start := hn
    exact ⟨g, rest, rfl, hf.symm⟩

theorem mem_branches {cells : Cells} {n : NodeId} :
    n ∈ labelsOfAll (branches cells) ↔ ∃ c ∈ cells, n ∈ c.1 :: labelsOfAll c.2 := by
  induction cells with
  | nil => simp
  | cons c cells ih => simp [ih, or_assoc]

end Cells

namespace NodePart

@[simp] theorem start_withStop (part : NodePart) (stop : NodeId) :
    (part.withStop stop).start = part.start := by
  match part with
  | .mk _ _ (.items parts) => rw [withStop]; rfl
  | .mk _ _ .empty | .mk _ _ (.text _) | .mk _ _ (.nested _ _) | .mk _ _ (.node _)
  | .mk _ _ (.pending _) => rfl

@[simp] theorem stop_withStop (part : NodePart) (stop : NodeId) :
    (part.withStop stop).stop = stop := by
  match part with
  | .mk _ _ (.items parts) => rw [withStop]; rfl
  | .mk _ _ .empty | .mk _ _ (.text _) | .mk _ _ (.nested _ _) | .mk _ _ (.node _)
  | .mk _ _ (.pending _) => rfl

end NodePart

/-- Branches that are a copy of a template: its pattern with nodes in place of the numbers, whose
kinds are those of the prototype with the attributes that the parts show. A part whose node is the
last of its siblings has a closing node; for any other part its own node stands in. -/
structure Template.Copy (t : Template) (kind : NodeId → NodeKind) (exact : Bool)
    (label closing : Nat → NodeId) (shown : List (Shown NodeId)) (f : List (Branch NodeId)) :
    Prop where
  aligned : List.Forall₂ Shown.Matches t.parts shown
  forest : f = (t.planting label closing shown).forest t.pattern
  kinds : ∀ i ∈ labelsOfAll t.pattern, (kind (label i)).view exact =
    ((t.kindAt i).extended (Shown.attributesAt t.parts shown i)).view exact
  closings : ∀ c ∈ t.parts, c.kind = .node → kind (closing c.index) = .text ""
  followed : ∀ c ∈ t.parts, c.kind = .node → Branch.nextOfAll c.index t.pattern ≠ none →
    closing c.index = label c.index

section

variable (objects : Objects) (known : Registry) (kind : NodeId → NodeKind) (exact : Bool)

mutual

/-- The branches of a region are what the part says. -/
def NodePart.Fits : NodePart → List (Branch NodeId) → Prop
  | .mk _ _ .empty, _ | .mk _ _ (.pending _), _ => True
  | .mk _ _ (.text shown), f => ∃ n, f = [.node n []] ∧ kind n = .text shown.text
  | .mk _ _ (.nested shared parts), f => known.has shared ∧ ∃ label closing shown,
    shared.template.Copy kind exact label closing shown f ∧
      Part.FitsAll label (shared.template.stopAt label closing) parts shared.template.parts shown
  | .mk start stop (.items parts), f => ∃ cells : Cells, cells.branches = .node start [] :: f ∧
    (∀ c ∈ cells.tail, kind c.1 = .text "") ∧ NodePart.FitsCells stop parts cells
  | .mk _ _ (.node fragment), f =>
    objects.fragments fragment.identity = fragment.nodes ∧ mapAll kind f = fragment.branches

/-- The items of a list are what their parts say, each between its beginning and the next. -/
def NodePart.FitsCells (stop : NodeId) : List NodePart → Cells → Prop
  | [], cells => cells = []
  | p :: ps, cells => ∃ n f rest, cells = (n, f) :: rest ∧ p.start = n ∧
    p.stop = Cells.start stop rest ∧ p.Fits f ∧ NodePart.FitsCells stop ps rest

/-- A part stands where its template has it and shows what it says. -/
def Part.Fits (label stop : Nat → NodeId) : Part → TemplatePart → Shown NodeId → Prop
  | .node part, c, shown => ∃ f, shown = .region f ∧ c.kind = .node ∧
    part.start = label c.index ∧ part.stop = stop c.index ∧ part.Fits f
  | .attribute part, c, shown => shown = .attribute part.current ∧
    c.kind = .attribute part.name part.strings ∧ part.element = label c.index ∧
    ∀ values, part.previous = some values → Value.FaithfulAll objects values

def Part.FitsAll (label stop : Nat → NodeId) :
    List Part → List TemplatePart → List (Shown NodeId) → Prop
  | [], cs, shown => cs = [] ∧ shown = []
  | p :: ps, cs, shown => ∃ c cs' s shown', cs = c :: cs' ∧ shown = s :: shown' ∧
    p.Fits label stop c s ∧ Part.FitsAll label stop ps cs' shown'

end

end

variable {objects : Objects} {known known' : Registry} {kind kind' : NodeId → NodeKind}
  {exact exact' : Bool} {f g : List (Branch NodeId)}

namespace Template.Copy

variable {t : Template} {label closing : Nat → NodeId} {shown before after : List (Shown NodeId)}
  {front rest : List TemplatePart} {c : TemplatePart}

theorem label_mem (h : t.Copy kind exact label closing shown f) {i : Nat}
    (hi : i ∈ labelsOfAll t.pattern) : label i ∈ labelsOfAll f := by
  rw [h.forest]
  exact Planting.label_mem_forest hi

/-- The region of a part is a place of the copy. -/
theorem exists_place (h : t.Copy kind exact label closing (before ++ .region g :: after) f)
    (hs : t.Sound) (hp : t.parts = front ++ c :: rest) (hk : c.kind = .node)
    (hl : front.length = before.length) :
    ∃ place : Place NodeId, f = place.fill g ∧
      place.Between (label c.index) (t.stopAt label closing c.index) ∧
      ∀ g, (t.planting label closing (before ++ .region g :: after)).forest t.pattern =
        place.fill g := by
  obtain ⟨place, hfill, hbetween⟩ := hs.exists_place hp hk hl after label closing
  exact ⟨place, h.forest.trans (hfill g), hbetween, hfill⟩

theorem region_subset (h : t.Copy kind exact label closing shown f) (hs : t.Sound)
    (hg : Shown.region g ∈ shown) {n : NodeId} (hn : n ∈ labelsOfAll g) : n ∈ labelsOfAll f := by
  rw [h.forest]
  exact hs.region_subset h.aligned hg hn

theorem stopAt_mem (h : t.Copy kind exact label closing shown f) (hs : t.Sound) (hc : c ∈ t.parts)
    (hk : c.kind = .node) : t.stopAt label closing c.index ∈ labelsOfAll f := by
  rw [h.forest]
  exact hs.stopAt_mem h.aligned hc hk

theorem closing_mem (h : t.Copy kind exact label closing shown f) (hs : t.Sound) (hc : c ∈ t.parts)
    (hk : c.kind = .node) : closing c.index ∈ labelsOfAll f := by
  by_cases hn : Branch.nextOfAll c.index t.pattern = none
  · have hm := h.stopAt_mem hs hc hk
    rwa [Template.stopAt, hn] at hm
  · rw [h.followed c hc hk hn]
    exact h.label_mem (hs.index_mem hc)

/-- A copy only depends on its own nodes, and one that is exact is one whatever the order of
attributes. -/
theorem mono (h : t.Copy kind exact label closing shown f) (hs : t.Sound)
    (hk : ∀ n ∈ labelsOfAll f, kind' n = kind n) (he : exact' = true → exact = true) :
    t.Copy kind' exact' label closing shown f where
  aligned := h.aligned
  forest := h.forest
  kinds i hi := by
    rw [hk _ (h.label_mem hi)]
    have hi := h.kinds i hi
    cases exact' with
    | false => exact NodeKind.view_false_of_view hi
    | true => exact he rfl ▸ hi
  closings c hc hn := by
    rw [hk _ (h.closing_mem hs hc hn)]
    exact h.closings c hc hn
  followed := h.followed

/-- Another content in the region of one part. -/
theorem replace (h : t.Copy kind exact label closing (before ++ .region f :: after) g) (hs : t.Sound)
    (hp : t.parts = front ++ c :: rest) (hl : front.length = before.length)
    (f' : List (Branch NodeId))
    (hkind : ∀ n ∈ labelsOfAll ((t.planting label closing
      (before ++ .region [] :: after)).forest t.pattern), kind' n = kind n) :
    t.Copy kind' exact label closing (before ++ .region f' :: after)
      ((t.planting label closing (before ++ .region f' :: after)).forest t.pattern) := by
  have haligned (f' : List (Branch NodeId)) :
      List.Forall₂ Shown.Matches t.parts (before ++ .region f' :: after) := by
    have ha := h.aligned
    rw [hp] at ha ⊢
    exact Shown.matches_replace ha hl id
  refine ⟨haligned f', rfl, fun i hi => ?_, fun d hd hdk => ?_, h.followed⟩
  · have hm : label i ∈ labelsOfAll ((t.planting label closing
        (before ++ .region [] :: after)).forest t.pattern) := Planting.label_mem_forest hi
    rw [hkind _ hm, h.kinds i hi, hp, Shown.attributesAt_region hl f f']
  · have hcopy : t.Copy kind exact label closing (before ++ .region [] :: after) _ :=
      ⟨haligned [], rfl, fun i hi => by rw [h.kinds i hi, hp, Shown.attributesAt_region hl f []],
        h.closings, h.followed⟩
    rw [hkind _ (hcopy.closing_mem hs hd hdk)]
    exact h.closings d hd hdk

theorem label_injective (h : t.Copy kind exact label closing shown f) (hn : (labelsOfAll f).Nodup)
    {i j : Nat} (hi : i ∈ labelsOfAll t.pattern) (hj : j ∈ labelsOfAll t.pattern)
    (he : label i = label j) : i = j := by
  rw [h.forest] at hn
  have hlabels := (Planting.labels_sublist (t.planting label closing shown) t.pattern).nodup hn
  exact List.inj_on_of_nodup_map hlabels hi hj he

/-- Nothing in the region of a part is elsewhere in the copy. -/
theorem disjoint_region (h : t.Copy kind exact label closing (before ++ .region g :: after) f)
    (hs : t.Sound) (hn : (labelsOfAll f).Nodup) (hp : t.parts = front ++ c :: rest)
    (hk : c.kind = .node) (hl : front.length = before.length) {n : NodeId}
    (ho : n ∈ labelsOfAll ((t.planting label closing
      (before ++ .region [] :: after)).forest t.pattern)) : n ∉ labelsOfAll g := by
  obtain ⟨place, rfl, -, hfill⟩ := h.exists_place hs hp hk hl
  rw [(place.labels_fill g).nodup_iff] at hn
  rw [hfill] at ho
  exact fun hm => (List.nodup_append.1 hn).2.2 n ho n hm rfl

theorem label_not_mem (h : t.Copy kind exact label closing shown f) (hs : t.Sound)
    (hn : (labelsOfAll f).Nodup) (hg : Shown.region g ∈ shown) {i : Nat}
    (hi : i ∈ labelsOfAll t.pattern) : label i ∉ labelsOfAll g := by
  obtain ⟨c, front, rest, before, after, hp, hk, rfl, hl⟩ := Shown.exists_part h.aligned hg
  exact h.disjoint_region hs hn hp hk hl
    (Planting.label_mem_forest (π := t.planting label closing (before ++ .region [] :: after)) hi)

/-- Another attribute of one part. -/
theorem renew {a b : Option Attribute}
    (h : t.Copy kind exact label closing (before ++ .attribute a :: after) f) (hs : t.Sound)
    (hn : (labelsOfAll f).Nodup) (hp : t.parts = front ++ c :: rest)
    (hl : front.length = before.length) {tag : String} {own : List Attribute}
    (hc : t.kindAt c.index = .element tag own)
    (hself : (kind' (label c.index)).view exact = (NodeKind.element tag
      (own ++ Shown.attributesAt front before c.index ++ b.toList ++
        Shown.attributesAt rest after c.index)).view exact)
    (hother : ∀ n, n ≠ label c.index → kind' n = kind n) :
    t.Copy kind' exact label closing (before ++ .attribute b :: after) f := by
  have hmem : c.index ∈ labelsOfAll t.pattern := hs.index_mem (by simp [hp])
  have hattributes (a : Option Attribute) (i : Nat) :
      Shown.attributesAt t.parts (before ++ .attribute a :: after) i =
        Shown.attributesAt front before i ++ (if c.index = i then a else none).toList ++
          Shown.attributesAt rest after i := by
    rw [hp, Shown.attributesAt_attribute hl]
  refine ⟨?_, ?_, fun i hi => ?_, fun d hd hdk => ?_, h.followed⟩
  · have ha := h.aligned
    rw [hp] at ha ⊢
    exact Shown.matches_replace ha hl id
  · rw [h.forest, planting, planting, hp, Shown.regionAt_attribute hl a b]
  · rw [hattributes]
    by_cases he : c.index = i
    · subst he
      rw [hself, hc, if_pos rfl]
      simp [NodeKind.extended]
    · have hne : label i ≠ label c.index := fun hl => he (h.label_injective hn hi hmem hl).symm
      rw [hother _ hne, h.kinds i hi, hattributes, if_neg he, if_neg he]
  · have htext := h.closings d hd hdk
    rw [hother _ fun he => ?_, htext]
    have helement := h.kinds _ hmem
    rw [hc, ← he, htext] at helement
    obtain ⟨own, hown, -⟩ := NodeKind.view_element.1 helement
    cases hown

end Template.Copy

variable {label stop : Nat → NodeId} {shown shown' : List (Shown NodeId)}
  {cs cs' : List TemplatePart} {ps ps' : List Part}

namespace Part.FitsAll

theorem append (h : FitsAll objects known kind exact label stop ps cs shown)
    (h' : FitsAll objects known kind exact label stop ps' cs' shown') :
    FitsAll objects known kind exact label stop (ps ++ ps') (cs ++ cs') (shown ++ shown') := by
  induction ps generalizing cs shown with
  | nil =>
    obtain ⟨rfl, rfl⟩ := h
    exact h'
  | cons p ps ih =>
    obtain ⟨c, cs, s, shown, rfl, rfl, hp, h⟩ := h
    exact ⟨c, cs ++ cs', s, shown ++ shown', rfl, rfl, hp, ih h⟩

theorem split (h : FitsAll objects known kind exact label stop (ps ++ ps') cs shown) :
    ∃ front rest ss rs, cs = front ++ rest ∧ shown = ss ++ rs ∧
      FitsAll objects known kind exact label stop ps front ss ∧
      FitsAll objects known kind exact label stop ps' rest rs := by
  induction ps generalizing cs shown with
  | nil => exact ⟨[], cs, [], shown, rfl, rfl, ⟨rfl, rfl⟩, h⟩
  | cons part ps ih =>
    obtain ⟨c, cs, s, shown, rfl, rfl, hpart, h⟩ := h
    obtain ⟨front, rest, ss, rs, rfl, rfl, hps, hqs⟩ := ih h
    exact ⟨c :: front, rest, s :: ss, rs, rfl, rfl, ⟨c, front, s, ss, rfl, rfl, hpart, hps⟩, hqs⟩

theorem length_eq (h : FitsAll objects known kind exact label stop ps cs shown) :
    ps.length = cs.length ∧ cs.length = shown.length := by
  induction ps generalizing cs shown with
  | nil =>
    obtain ⟨rfl, rfl⟩ := h
    exact ⟨rfl, rfl⟩
  | cons p ps ih =>
    obtain ⟨c, cs, s, shown, rfl, rfl, -, h⟩ := h
    obtain ⟨hp, hs⟩ := ih h
    exact ⟨congrArg (· + 1) hp, congrArg (· + 1) hs⟩

/-- The attributes shown at a node carry the names of the parts there. -/
theorem names_sublist (h : FitsAll objects known kind exact label stop ps cs shown) (i : Nat) :
    ((Shown.attributesAt cs shown i).map (·.name)).Sublist
      ((cs.filter (·.index == i)).filterMap TemplatePart.name?) := by
  induction ps generalizing cs shown with
  | nil =>
    obtain ⟨rfl, rfl⟩ := h
    exact .slnil
  | cons p ps ih =>
    obtain ⟨c, cs, s, shown, rfl, rfl, hp, h⟩ := h
    have hrest := ih h
    simp only [Shown.attributesAt, List.zip_cons_cons, List.filterMap_cons,
      List.filter_cons] at hrest ⊢
    cases p with
    | node part =>
      obtain ⟨f, rfl, hk, -⟩ := hp
      have hname : c.name? = none := by simp [TemplatePart.name?, hk]
      by_cases hi : c.index = i
      · simpa [Shown.attributeOf, hi, hname] using hrest
      · simpa [Shown.attributeOf, hi] using hrest
    | «attribute» part =>
      obtain ⟨rfl, hk, -⟩ := hp
      have hname : c.name? = some part.name := by simp [TemplatePart.name?, hk]
      by_cases hi : c.index = i
      · simp only [Shown.attributeOf, hi, if_true, beq_self_eq_true, List.filterMap_cons, hname]
        cases hc : part.current with
        | none => exact hrest.cons _
        | some a =>
          rw [List.map_cons, AttributePart.name_of_current hc]
          exact hrest.cons_cons _
      · simpa [Shown.attributeOf, hi] using hrest

end Part.FitsAll

mutual

/-- What a part says only depends on the nodes of its region. -/
theorem NodePart.Fits.mono {part : NodePart} {f : List (Branch NodeId)}
    (h : part.Fits objects known kind exact f) (hle : known ≤ known')
    (hk : ∀ n ∈ labelsOfAll f, kind' n = kind n) (he : exact' = true → exact = true) :
    part.Fits objects known' kind' exact' f := by
  match part with
  | .mk _ _ .empty | .mk _ _ (.pending _) => trivial
  | .mk _ _ (.text shown) =>
    obtain ⟨n, rfl, hn⟩ := h
    exact ⟨n, rfl, (hk n (by simp)).trans hn⟩
  | .mk _ _ (.nested shared parts) =>
    obtain ⟨hs, label, closing, shown, hcopy, hparts⟩ := h
    have hsound := known.sound _ hs
    refine ⟨hle _ hs, label, closing, shown, hcopy.mono hsound hk he, ?_⟩
    exact hparts.mono hle (fun g hg n hn => hk n (hcopy.region_subset hsound hg hn)) he
  | .mk start stop (.items parts) =>
    obtain ⟨cells, hf, htexts, hcells⟩ := h
    obtain ⟨g, rest, rfl, rfl⟩ := Cells.eq_cons hf
    have hrest : ∀ c ∈ rest, ∀ n ∈ c.1 :: labelsOfAll c.2, kind' n = kind n := fun c hc n hn =>
      hk n (by simp [Cells.mem_branches.2 ⟨c, hc, hn⟩])
    refine ⟨_, hf, fun c hc => ?_, hcells.mono hle (fun c hc n hn => ?_) he⟩
    · exact (hrest c hc c.1 List.mem_cons_self).trans (htexts c hc)
    · rcases List.mem_cons.1 hc with rfl | hc
      · exact hk n (by simp [hn])
      · exact hrest c hc n (List.mem_cons_of_mem _ hn)
  | .mk _ _ (.node fragment) =>
    obtain ⟨hfaithful, hkinds⟩ := h
    exact ⟨hfaithful, (Branch.mapAll_congr hk).trans hkinds⟩

theorem NodePart.FitsCells.mono {stop : NodeId} {parts : List NodePart} {cells : Cells}
    (h : NodePart.FitsCells objects known kind exact stop parts cells) (hle : known ≤ known')
    (hk : ∀ c ∈ cells, ∀ n ∈ labelsOfAll c.2, kind' n = kind n) (he : exact' = true → exact = true) :
    NodePart.FitsCells objects known' kind' exact' stop parts cells := by
  match parts with
  | [] => exact h
  | p :: ps =>
    obtain ⟨n, f, rest, rfl, hstart, hstop, hp, h⟩ := h
    exact ⟨n, f, rest, rfl, hstart, hstop, hp.mono hle (hk (n, f) List.mem_cons_self) he,
      h.mono hle (fun c hc => hk c (List.mem_cons_of_mem _ hc)) he⟩

theorem Part.Fits.mono {label stop : Nat → NodeId} {part : Part} {c : TemplatePart}
    {s : Shown NodeId} (h : part.Fits objects known kind exact label stop c s) (hle : known ≤ known')
    (hk : ∀ g, s = .region g → ∀ n ∈ labelsOfAll g, kind' n = kind n)
    (he : exact' = true → exact = true) :
    part.Fits objects known' kind' exact' label stop c s := by
  match part with
  | .node part =>
    obtain ⟨f, rfl, hc, hstart, hstop, hp⟩ := h
    exact ⟨f, rfl, hc, hstart, hstop, hp.mono hle (hk f rfl) he⟩
  | .attribute part => exact h

theorem Part.FitsAll.mono {label stop : Nat → NodeId} {parts : List Part} {cs : List TemplatePart}
    {shown : List (Shown NodeId)}
    (h : Part.FitsAll objects known kind exact label stop parts cs shown) (hle : known ≤ known')
    (hk : ∀ g, Shown.region g ∈ shown → ∀ n ∈ labelsOfAll g, kind' n = kind n)
    (he : exact' = true → exact = true) :
    Part.FitsAll objects known' kind' exact' label stop parts cs shown := by
  match parts with
  | [] => exact h
  | p :: ps =>
    obtain ⟨c, cs, s, shown, rfl, rfl, hp, h⟩ := h
    exact ⟨c, cs, s, shown, rfl, rfl,
      hp.mono hle (fun g hg => hk g (hg ▸ List.mem_cons_self)) he,
      h.mono hle (fun g hg => hk g (List.mem_cons_of_mem _ hg)) he⟩

end

end LiveMarkup
