import LiveMarkup.Proofs.Part.Region
import LiveMarkup.Proofs.Value.Foresight

set_option autoImplicit false

/-!
What a region will show. A part reads as branches if its region shows them once everything that it
waits for has been applied: where nothing is waited for the nodes are the branches already, and
where a value is awaited that will come, whatever is there now will make place for it.
-/

namespace LiveMarkup

open Branch (labelsOfAll mapAll)

section

variable (forecast : Forecast) (objects : Objects) (known : Registry) (kind : NodeId → NodeKind)
  (exact : Bool)

mutual

/-- A region will show branches. -/
def NodePart.Reads : NodePart → List (Branch NodeId) → List (Branch NodeKind) → Prop
  | .mk _ _ (.pending d), f, bs =>
    match forecast d with
    | .stays => Branch.Like exact kind f bs
    | .becomes cs => bs = cs
    | .gone => False
  | .mk _ _ (.nested shared parts), f, bs => known.has shared ∧ ∃ label closing shown read,
    shared.template.Copy kind exact label closing shown f ∧
      Part.FitsAll objects known kind exact label (shared.template.stopAt label closing) parts
        shared.template.parts shown ∧
      Part.ReadsAll parts shown read ∧ bs = shared.template.filled read
  | .mk start stop (.items parts), f, bs => ∃ (cells : Cells) (bss : List (List (Branch NodeKind))),
    cells.branches = .node start [] :: f ∧ (∀ c ∈ cells.tail, kind c.1 = .text "") ∧
      NodePart.FitsCells objects known kind exact stop parts cells ∧
      NodePart.ReadsCells parts cells bss ∧ bs = Branch.separated bss
  | .mk _ _ .empty, f, bs | .mk _ _ (.text _), f, bs | .mk _ _ (.node _), f, bs =>
    Branch.Like exact kind f bs

/-- The items of a list will show branches each. -/
def NodePart.ReadsCells : List NodePart → Cells → List (List (Branch NodeKind)) → Prop
  | [], cells, bss => cells = [] ∧ bss = []
  | p :: ps, cells, bss => ∃ n f rest bs others, cells = (n, f) :: rest ∧ bss = bs :: others ∧
    p.Reads f bs ∧ NodePart.ReadsCells ps rest others

/-- A part will show branches or shows an attribute. -/
def Part.Reads : Part → Shown NodeId → Shown NodeKind → Prop
  | .node part, s, b => ∃ f bs, s = .region f ∧ b = .region bs ∧ part.Reads f bs
  | .attribute _, s, b => ∃ a, s = .attribute a ∧ b = .attribute a

def Part.ReadsAll : List Part → List (Shown NodeId) → List (Shown NodeKind) → Prop
  | [], ss, bs => ss = [] ∧ bs = []
  | p :: ps, ss, bs => ∃ s ss' b bs', ss = s :: ss' ∧ bs = b :: bs' ∧ p.Reads s b ∧
    Part.ReadsAll ps ss' bs'

end

end

variable {forecast : Forecast} {objects : Objects} {known known' : Registry}
  {kind kind' : NodeId → NodeKind} {exact : Bool} {f g : List (Branch NodeId)}
  {bs cs : List (Branch NodeKind)}

/-- Parts show what shown branches and attributes say. -/
def Shown.Like (exact : Bool) (kind : NodeId → NodeKind) (ss : List (Shown NodeId))
    (bs : List (Shown NodeKind)) : Prop :=
  ss.map (Shown.map fun n => (kind n).view exact) = bs.map (Shown.map (NodeKind.view exact))

theorem Shown.Like.cons {s : Shown NodeId} {b : Shown NodeKind}
    {ss : List (Shown NodeId)} {bs : List (Shown NodeKind)}
    (hs : s.map (fun n => (kind n).view exact) = b.map (NodeKind.view exact))
    (h : Shown.Like exact kind ss bs) : Shown.Like exact kind (s :: ss) (b :: bs) := by
  rw [Shown.Like, List.map_cons, List.map_cons, hs, h]

namespace Branch.Like

theorem congr (h : Branch.Like exact kind f bs) (hk : ∀ n ∈ labelsOfAll f, kind' n = kind n) :
    Branch.Like exact kind' f bs := by
  rw [Branch.Like, ← h]
  exact Branch.mapAll_congr fun n hn => by rw [hk n hn]

theorem append (h : Branch.Like exact kind f bs) (h' : Branch.Like exact kind g cs) :
    Branch.Like exact kind (f ++ g) (bs ++ cs) := by
  rw [Branch.Like, Branch.mapAll_append, Branch.mapAll_append, h, h']

end Branch.Like

/-- Items with a text before each but the first are the separated branches of the items. -/
theorem Cells.like_separated {start : NodeId} {cells : Cells} {bss : List (List (Branch NodeKind))}
    (h : branches cells = .node start [] :: f)
    (ht : ∀ n ∈ (cells.map Prod.fst).tail, kind n = .text "")
    (hl : List.Forall₂ (fun c bs => Branch.Like exact kind c.2 bs) cells bss) :
    Branch.Like exact kind f (Branch.separated bss) := by
  induction hl generalizing start f with
  | nil => cases h
  | @cons c bs cells bss hc hrest ih =>
    obtain ⟨m, g⟩ := c
    rw [branches_cons] at h
    injection h with _ hf
    subst hf
    cases hrest with
    | nil => simpa [Branch.separated] using hc
    | @cons d cs cells bss hd hrest =>
      rw [branches_cons, Branch.separated]
      have htext : kind d.1 = .text "" := ht d.1 (by simp)
      have hsep : Branch.Like exact kind [.node d.1 []] [.node (.text "") []] :=
        .of_eq (by simp [htext])
      exact hc.append (hsep.append (ih (branches_cons d cells) fun n hn =>
        ht n (List.mem_of_mem_tail hn)))

/-- A node with a region behind it is the node of a part. -/
theorem Shown.exists_of_regionAt {α : Type} {parts : List TemplatePart} {ss : List (Shown α)}
    (h : List.Forall₂ Shown.Matches parts ss) {i : Nat} (hr : Shown.regionAt parts ss i ≠ none) :
    ∃ c ∈ parts, c.kind = .node ∧ c.index = i := by
  induction h with
  | nil => exact absurd rfl hr
  | @cons c s parts ss hm _ ih =>
    rw [Shown.regionAt, List.zip_cons_cons, List.findSome?_cons] at hr
    split at hr
    · rename_i g hg
      cases s with
      | region bs =>
        refine ⟨c, List.mem_cons_self, hm, ?_⟩
        by_contra hne
        simp [Shown.regionOf, hne] at hg
      | «attribute» a => cases hg
    · obtain ⟨d, hd, hk, hi⟩ := ih hr
      exact ⟨d, List.mem_cons_of_mem _ hd, hk, hi⟩

/-- A copy whose parts show what shown branches and attributes say is the prototype filled with
them. -/
theorem Template.Copy.like {t : Template} {label closing : Nat → NodeId} {ss : List (Shown NodeId)}
    {bs : List (Shown NodeKind)} (h : t.Copy kind exact label closing ss f)
    (hl : Shown.Like exact kind ss bs) : Branch.Like exact kind f (t.filled bs) := by
  have hattributes (i : Nat) :
      Shown.attributesAt t.parts ss i = Shown.attributesAt t.parts bs i := by
    rw [← Shown.attributesAt_map (fun n => (kind n).view exact), hl, Shown.attributesAt_map]
  rw [Branch.Like, h.forest, Template.filled, ← Planting.forest_map, ← Planting.forest_map,
    map_planting, map_planting, hl]
  refine Planting.forest_congr fun i hi => ⟨?_, rfl, fun hr => ?_⟩
  · exact (h.kinds i hi).trans (by rw [hattributes]; rfl)
  · have hr' : Shown.regionAt t.parts ss i ≠ none := fun hn => hr (by
      change Shown.regionAt t.parts (bs.map (Shown.map (NodeKind.view exact))) i = none
      rw [← hl, Shown.regionAt_map, hn]
      rfl)
    obtain ⟨c, hc, hk, rfl⟩ := Shown.exists_of_regionAt h.aligned hr'
    exact congrArg (NodeKind.view exact) (h.closings c hc hk)

theorem Cells.texts_tail {cells : Cells} (h : ∀ c ∈ cells.tail, kind c.1 = .text "") :
    ∀ n ∈ (cells.map Prod.fst).tail, kind n = .text "" := by
  intro n hn
  rw [← List.map_tail] at hn
  obtain ⟨c, hc, rfl⟩ := List.mem_map.1 hn
  exact h c hc

mutual

/-- Where nothing will change any more, a region shows what it will show. -/
theorem NodePart.Reads.like {part : NodePart} {f : List (Branch NodeId)}
    {bs : List (Branch NodeKind)} (h : part.Reads forecast objects known kind exact f bs)
    (hf : forecast.Final) : Branch.Like exact kind f bs := by
  match part with
  | .mk _ _ .empty | .mk _ _ (.text _) | .mk _ _ (.node _) => exact h
  | .mk _ _ (.pending d) =>
    rw [NodePart.Reads] at h
    cases hd : forecast d with
    | stays => rwa [hd] at h
    | becomes cs => exact absurd hd (hf d cs)
    | gone => rw [hd] at h; exact h.elim
  | .mk _ _ (.nested shared parts) =>
    obtain ⟨-, label, closing, shown, read, hcopy, -, hread, rfl⟩ := h
    exact hcopy.like (hread.like hf)
  | .mk _ _ (.items parts) =>
    obtain ⟨cells, bss, hlaid, htexts, -, hread, rfl⟩ := h
    exact Cells.like_separated hlaid (Cells.texts_tail htexts) (hread.like hf)

theorem NodePart.ReadsCells.like {parts : List NodePart} {cells : Cells}
    {bss : List (List (Branch NodeKind))}
    (h : NodePart.ReadsCells forecast objects known kind exact parts cells bss)
    (hf : forecast.Final) :
    List.Forall₂ (fun c bs => Branch.Like exact kind c.2 bs) cells bss := by
  match parts with
  | [] =>
    obtain ⟨rfl, rfl⟩ := h
    exact .nil
  | p :: ps =>
    obtain ⟨n, f, rest, bs, others, rfl, rfl, hp, h⟩ := h
    exact .cons (hp.like hf) (h.like hf)

theorem Part.ReadsAll.like {parts : List Part} {ss : List (Shown NodeId)}
    {bs : List (Shown NodeKind)}
    (h : Part.ReadsAll forecast objects known kind exact parts ss bs) (hf : forecast.Final) :
    Shown.Like exact kind ss bs := by
  match parts with
  | [] =>
    obtain ⟨rfl, rfl⟩ := h
    rfl
  | .node p :: ps =>
    obtain ⟨s, ss, b, bs, rfl, rfl, ⟨f, cs, rfl, rfl, hp⟩, h⟩ := h
    exact .cons (congrArg Shown.region (hp.like hf)) (h.like hf)
  | .attribute p :: ps =>
    obtain ⟨s, ss, b, bs, rfl, rfl, ⟨a, rfl, rfl⟩, h⟩ := h
    exact .cons rfl (h.like hf)

end

mutual

/-- What a region will show only depends on the nodes in it. -/
theorem NodePart.Reads.mono {part : NodePart} {f : List (Branch NodeId)}
    {bs : List (Branch NodeKind)} (h : part.Reads forecast objects known kind exact f bs)
    (hle : known ≤ known') (hk : ∀ n ∈ labelsOfAll f, kind' n = kind n) :
    part.Reads forecast objects known' kind' exact f bs := by
  match part with
  | .mk _ _ .empty | .mk _ _ (.text _) | .mk _ _ (.node _) => exact Branch.Like.congr h hk
  | .mk _ _ (.pending d) =>
    rw [NodePart.Reads] at h ⊢
    cases hd : forecast d with
    | stays =>
      rw [hd] at h
      exact Branch.Like.congr h hk
    | becomes cs => rwa [hd] at h
    | gone => rwa [hd] at h
  | .mk _ _ (.nested shared parts) =>
    obtain ⟨hhas, label, closing, shown, read, hcopy, hfits, hread, rfl⟩ := h
    have hsound := known.sound _ hhas
    have hregion : ∀ g, Shown.region g ∈ shown → ∀ n ∈ labelsOfAll g, kind' n = kind n :=
      fun g hg n hn => hk n (hcopy.region_subset hsound hg hn)
    exact ⟨hle _ hhas, label, closing, shown, read, hcopy.mono hsound hk id,
      hfits.mono hle hregion id, hread.mono hle hregion, rfl⟩
  | .mk start stop (.items parts) =>
    obtain ⟨cells, bss, hlaid, htexts, hcells, hread, rfl⟩ := h
    obtain ⟨g, rest, rfl, rfl⟩ := Cells.eq_cons hlaid
    have hrest : ∀ c ∈ rest, ∀ n ∈ c.1 :: labelsOfAll c.2, kind' n = kind n := fun c hc n hn =>
      hk n (by simp [Cells.mem_branches.2 ⟨c, hc, hn⟩])
    have hall : ∀ c ∈ (start, g) :: rest, ∀ n ∈ labelsOfAll c.2, kind' n = kind n := by
      intro c hc n hn
      rcases List.mem_cons.1 hc with rfl | hc
      · exact hk n (by simp [hn])
      · exact hrest c hc n (List.mem_cons_of_mem _ hn)
    exact ⟨_, bss, hlaid, fun c hc => (hrest c hc c.1 List.mem_cons_self).trans (htexts c hc),
      hcells.mono hle hall id, hread.mono hle hall, rfl⟩

theorem NodePart.ReadsCells.mono {parts : List NodePart} {cells : Cells}
    {bss : List (List (Branch NodeKind))}
    (h : NodePart.ReadsCells forecast objects known kind exact parts cells bss)
    (hle : known ≤ known') (hk : ∀ c ∈ cells, ∀ n ∈ labelsOfAll c.2, kind' n = kind n) :
    NodePart.ReadsCells forecast objects known' kind' exact parts cells bss := by
  match parts with
  | [] => exact h
  | p :: ps =>
    obtain ⟨n, f, rest, bs, others, rfl, rfl, hp, h⟩ := h
    exact ⟨n, f, rest, bs, others, rfl, rfl, hp.mono hle (hk (n, f) List.mem_cons_self),
      h.mono hle fun c hc => hk c (List.mem_cons_of_mem _ hc)⟩

theorem Part.ReadsAll.mono {parts : List Part} {ss : List (Shown NodeId)}
    {bs : List (Shown NodeKind)}
    (h : Part.ReadsAll forecast objects known kind exact parts ss bs) (hle : known ≤ known')
    (hk : ∀ g, Shown.region g ∈ ss → ∀ n ∈ labelsOfAll g, kind' n = kind n) :
    Part.ReadsAll forecast objects known' kind' exact parts ss bs := by
  match parts with
  | [] => exact h
  | .node p :: ps =>
    obtain ⟨s, ss, b, bs, rfl, rfl, ⟨f, cs, rfl, rfl, hp⟩, h⟩ := h
    exact ⟨_, ss, _, bs, rfl, rfl,
      ⟨f, cs, rfl, rfl, hp.mono hle (hk f List.mem_cons_self)⟩,
      h.mono hle fun g hg => hk g (List.mem_cons_of_mem _ hg)⟩
  | .attribute p :: ps =>
    obtain ⟨s, ss, b, bs, rfl, rfl, ha, h⟩ := h
    exact ⟨s, ss, b, bs, rfl, rfl, ha, h.mono hle fun g hg => hk g (List.mem_cons_of_mem _ hg)⟩

end

mutual

/-- If nothing changes, a region will show what is in it. -/
theorem NodePart.Fits.exists_reads {part : NodePart} {f : List (Branch NodeId)}
    (h : part.Fits objects known kind exact f) :
    ∃ bs, part.Reads .still objects known kind exact f bs := by
  match part with
  | .mk _ _ .empty | .mk _ _ (.text _) | .mk _ _ (.node _) | .mk _ _ (.pending _) =>
    exact ⟨mapAll kind f, .of_eq rfl⟩
  | .mk _ _ (.nested shared parts) =>
    obtain ⟨hhas, label, closing, shown, hcopy, hfits⟩ := h
    obtain ⟨read, hread⟩ := hfits.exists_reads
    exact ⟨_, hhas, label, closing, shown, read, hcopy, hfits, hread, rfl⟩
  | .mk _ _ (.items parts) =>
    obtain ⟨cells, hlaid, htexts, hcells⟩ := h
    obtain ⟨bss, hread⟩ := hcells.exists_reads
    exact ⟨_, cells, bss, hlaid, htexts, hcells, hread, rfl⟩

theorem NodePart.FitsCells.exists_reads {stop : NodeId} {parts : List NodePart} {cells : Cells}
    (h : NodePart.FitsCells objects known kind exact stop parts cells) :
    ∃ bss, NodePart.ReadsCells .still objects known kind exact parts cells bss := by
  match parts with
  | [] => exact ⟨[], h, rfl⟩
  | p :: ps =>
    obtain ⟨n, f, rest, rfl, -, -, hp, h⟩ := h
    obtain ⟨bs, hp⟩ := hp.exists_reads
    obtain ⟨bss, h⟩ := h.exists_reads
    exact ⟨bs :: bss, n, f, rest, bs, bss, rfl, rfl, hp, h⟩

theorem Part.FitsAll.exists_reads {label stop : Nat → NodeId} {parts : List Part}
    {cs : List TemplatePart} {shown : List (Shown NodeId)}
    (h : Part.FitsAll objects known kind exact label stop parts cs shown) :
    ∃ read, Part.ReadsAll .still objects known kind exact parts shown read := by
  match parts with
  | [] => exact ⟨[], h.2, rfl⟩
  | .node p :: ps =>
    obtain ⟨c, cs, s, shown, rfl, rfl, ⟨f, rfl, -, -, -, hp⟩, h⟩ := h
    obtain ⟨bs, hp⟩ := hp.exists_reads
    obtain ⟨read, h⟩ := h.exists_reads
    exact ⟨.region bs :: read, _, shown, _, read, rfl, rfl, ⟨f, bs, rfl, rfl, hp⟩, h⟩
  | .attribute p :: ps =>
    obtain ⟨c, cs, s, shown, rfl, rfl, ⟨rfl, -⟩, h⟩ := h
    obtain ⟨read, h⟩ := h.exists_reads
    exact ⟨.attribute p.current :: read, _, shown, _, read, rfl, rfl, ⟨_, rfl, rfl⟩, h⟩

end

namespace Part.ReadsAll

variable {ps qs : List Part} {ss ss' : List (Shown NodeId)} {read read' : List (Shown NodeKind)}

theorem append (h : ReadsAll forecast objects known kind exact ps ss read)
    (h' : ReadsAll forecast objects known kind exact qs ss' read') :
    ReadsAll forecast objects known kind exact (ps ++ qs) (ss ++ ss') (read ++ read') := by
  induction ps generalizing ss read with
  | nil =>
    obtain ⟨rfl, rfl⟩ := h
    exact h'
  | cons p ps ih =>
    obtain ⟨s, ss, b, bs, rfl, rfl, hp, h⟩ := h
    exact ⟨s, ss ++ ss', b, bs ++ read', rfl, rfl, hp, ih h⟩

/-- A part behind the ones that are done. -/
theorem snoc {p : Part} {s : Shown NodeId} {b : Shown NodeKind}
    (h : ReadsAll forecast objects known kind exact ps ss read)
    (hp : p.Reads forecast objects known kind exact s b) :
    ReadsAll forecast objects known kind exact (ps ++ [p]) (ss ++ [s]) (read ++ [b]) :=
  h.append ⟨s, [], b, [], rfl, rfl, hp, rfl, rfl⟩

end Part.ReadsAll

namespace NodePart.ReadsCells

variable {ps qs : List NodePart} {cells cells' : Cells} {bss bss' : List (List (Branch NodeKind))}

theorem append (h : ReadsCells forecast objects known kind exact ps cells bss)
    (h' : ReadsCells forecast objects known kind exact qs cells' bss') :
    ReadsCells forecast objects known kind exact (ps ++ qs) (cells ++ cells') (bss ++ bss') := by
  induction ps generalizing cells bss with
  | nil =>
    obtain ⟨rfl, rfl⟩ := h
    exact h'
  | cons p ps ih =>
    obtain ⟨n, f, rest, bs, others, rfl, rfl, hp, h⟩ := h
    exact ⟨n, f, rest ++ cells', bs, others ++ bss', rfl, rfl, hp, ih h⟩

/-- An item behind the ones that are done. -/
theorem snoc {part : NodePart} {n : NodeId}
    (h : ReadsCells forecast objects known kind exact ps cells bss)
    (hp : part.Reads forecast objects known kind exact f bs) :
    ReadsCells forecast objects known kind exact (ps ++ [part]) (cells ++ [(n, f)]) (bss ++ [bs]) :=
  h.append ⟨n, f, [], bs, [], rfl, rfl, hp, rfl, rfl⟩

theorem split (h : ReadsCells forecast objects known kind exact (ps ++ qs) cells bss) :
    ∃ left right bss₁ bss₂, cells = left ++ right ∧ bss = bss₁ ++ bss₂ ∧
      ReadsCells forecast objects known kind exact ps left bss₁ ∧
      ReadsCells forecast objects known kind exact qs right bss₂ := by
  induction ps generalizing cells bss with
  | nil => exact ⟨[], cells, [], bss, rfl, rfl, ⟨rfl, rfl⟩, h⟩
  | cons p ps ih =>
    obtain ⟨n, f, rest, bs, others, rfl, rfl, hp, h⟩ := h
    obtain ⟨left, right, bss₁, bss₂, rfl, rfl, hleft, hright⟩ := ih h
    exact ⟨(n, f) :: left, right, bs :: bss₁, bss₂, rfl, rfl,
      ⟨n, f, left, bs, bss₁, rfl, rfl, hp, hleft⟩, hright⟩

end NodePart.ReadsCells

end LiveMarkup
