import LiveMarkup.Proofs.Part.Remembering
import LiveMarkup.Proofs.Render.Resting
import LiveMarkup.Proofs.Value.Echoing

set_option autoImplicit false

/-!
A value that says what a part was given last, made anew. Attributes may be written again, but with
the text that they have; so if the value is applied at all, no record of a node changes.
-/

namespace LiveMarkup

open Branch (labelsOfAll)
open LiveMarkup.Tree (Stretch)

/-- No record of a node has changed, and the cache has gone on. -/
structure Applied.Stays {α : Type} (objects : Objects) (w : World) (a : Applied α) : Prop where
  core_eq : ∀ n, a.world.tree.core n = w.tree.core n
  coherent : ∃ known, a.world.cache.Coherent objects known
  extends_cache : w.cache.Extends a.world.cache

/-- The element of an attribute part has the attribute that its last values gave it. -/
structure AttributePart.ShownAt (objects : Objects) (kind : NodeId → NodeKind)
    (part : AttributePart) : Prop where
  element : ∃ tag attributes, kind part.element = .element tag attributes ∧
    attributes.find? (·.name == part.name) = part.current
  faithful : ∀ values, part.previous = some values → Value.FaithfulAll objects values

section

variable (objects : Objects) (kind : NodeId → NodeKind)

mutual

/-- All attribute parts below a part have their attributes at their elements. -/
def NodePart.Written : NodePart → Prop
  | .mk _ _ (.nested _ parts) => Part.WrittenAll parts
  | .mk _ _ (.items parts) => NodePart.WrittenAll parts
  | .mk _ _ .empty | .mk _ _ (.text _) | .mk _ _ (.node _) | .mk _ _ (.pending _) => True

def NodePart.WrittenAll : List NodePart → Prop
  | [] => True
  | part :: parts => part.Written ∧ NodePart.WrittenAll parts

def Part.WrittenAll : List Part → Prop
  | [] => True
  | .node part :: parts => part.Written ∧ Part.WrittenAll parts
  | .attribute part :: parts => part.ShownAt objects kind ∧ Part.WrittenAll parts

end

end

/-- A way to apply values touches no node where a value says what a part carries. -/
def Patch.Stays (patch : Patch) (objects : Objects) (look : Look) (strict : Bool) : Prop :=
  ∀ {s : Setting} {known : Registry} {w : World} {part : NodePart} {f : List (Branch NodeId)}
    {value value' : Value},
    w.cache.Coherent objects known → look.Within objects w.cache →
    w.tree.Fenced part.start part.stop f → part.Written objects w.tree.kind →
    part.Carries look strict f value → value.Echoes value' → value.Faithful objects →
    value'.Faithful objects → (patch s w part value').error = none →
    (patch s w part value').Stays objects w

variable {objects : Objects} {known : Registry} {exact : Bool} {look : Look} {strict : Bool}
  {s : Setting} {w w' : World} {t t' : Tree} {p : NodeId} {before after : List NodeId}
  {start stop : NodeId} {part : NodePart} {f : List (Branch NodeId)} {patch : Patch}
  {values values' : List Value} {kind : NodeId → NodeKind}

namespace Applied.Stays

variable {α β : Type} {a : Applied α}

theorem of_tree {x : α} (hc : w'.cache.Coherent objects known) (ht : w'.tree = w.tree)
    (he : w.cache.Extends w'.cache) : Stays objects w { part := x, world := w' } :=
  ⟨fun n => by rw [ht], ⟨known, hc⟩, he⟩

theorem of_rests {x : α} (h : a.Rests objects w x) : a.Stays objects w :=
  ⟨fun n => by rw [h.tree_eq], h.coherent, h.extends_cache⟩

theorem later (h : a.Stays objects w') (ht : ∀ n, w'.tree.core n = w.tree.core n)
    (he : w.cache.Extends w'.cache) : a.Stays objects w :=
  ⟨fun n => (h.core_eq n).trans (ht n), h.coherent, he.trans h.extends_cache⟩

theorem map (h : a.Stays objects w) (g : α → β) : (a.map g).Stays objects w :=
  ⟨h.core_eq, h.coherent, h.extends_cache⟩

theorem kind_eq (h : a.Stays objects w) : a.world.tree.kind = w.tree.kind :=
  funext fun n => Tree.kind_of_core (h.core_eq n)

end Applied.Stays

theorem Tree.Fenced.of_core (h : t.Fenced start stop f) (hc : ∀ n, t'.core n = t.core n) :
    t'.Fenced start stop f := by
  obtain ⟨p, left, right, hst⟩ := h
  exact ⟨p, left, right, hst.of_core fun n _ => hc n⟩

theorem Attribute.renewed_self {name : String} {own : List Attribute} {cur : Option Attribute}
    (h : own.find? (·.name == name) = cur) : Attribute.renewed name cur own = own := by
  induction own with
  | nil =>
    obtain rfl : none = cur := h
    rfl
  | cons o own ih =>
    cases ho : o.name == name with
    | true =>
      simp only [List.find?_cons, ho] at h
      subst h
      rw [renewed, Tree.overwrite, if_pos ho, ← eq_of_beq ho]
    | false =>
      simp only [List.find?_cons, ho] at h
      have hrest := ih h
      cases cur with
      | none =>
        rw [renewed] at hrest ⊢
        rw [List.eraseP_cons, ho, cond_false, hrest]
      | some a =>
        rw [renewed] at hrest ⊢
        rw [Tree.overwrite, ho, if_neg Bool.false_ne_true, hrest]

namespace AttributePart

/-- Values that give an attribute what it has change nothing. -/
theorem ShownAt.core_setValues {part : AttributePart} (h : part.ShownAt objects t.kind)
    (hv : shownBy part.name part.strings values = part.current) (n : NodeId) :
    (part.setValues t values).2.1.core n = t.core n := by
  cases hu : part.unchanged values with
  | true => rw [setValues, if_pos hu]
  | false =>
    obtain ⟨tag, attributes, hk, hfind⟩ := h.element
    obtain ⟨-, hrewritten⟩ := setValues_renews hu hk
    rw [hv, Attribute.renewed_self hfind, ← hk] at hrewritten
    have hn := hrewritten n
    rw [Tree.core, Tree.core, hn]
    split
    · rename_i he
      rw [he]
      rfl
    · rfl

/-- What values that say the same as the last ones give an attribute. -/
theorem ShownAt.shownBy_eq {part : AttributePart} (h : part.ShownAt objects kind)
    {previous : List Value} (hprevious : part.previous = some previous)
    (hsame : previous = values ∨ Value.sameAll previous values = true)
    (hv : Value.FaithfulAll objects values) (he : Value.EchoesAll values values') :
    shownBy part.name part.strings values' = part.current := by
  rw [current, hprevious, Option.bind_some, ← shownBy_of_echoes part.name part.strings he]
  rcases hsame with rfl | hsame
  · rfl
  · exact (shownBy_of_same hsame (h.faithful previous hprevious) hv).symm

end AttributePart

/-- Among attributes of different names, the one of a name that is shown is found. -/
theorem Attribute.find?_of_perm {name : String} {own front back : List Attribute}
    {cur : Option Attribute} (hcur : ∀ a ∈ cur, a.name = name)
    (hn : name ∉ (front ++ back).map (·.name)) (hp : own.Perm (front ++ cur.toList ++ back)) :
    own.find? (·.name == name) = cur := by
  have hother {a : Attribute} (ha : a ∈ front ++ back) : a.name ≠ name :=
    fun he => hn (he ▸ List.mem_map_of_mem ha)
  cases cur with
  | none =>
    rw [List.find?_eq_none]
    intro a ha
    have hmem : a ∈ front ++ back := by simpa using hp.mem_iff.1 ha
    simpa using hother hmem
  | some c =>
    have hc : c ∈ own := hp.mem_iff.2 (by simp)
    have hfound : (own.find? (·.name == name)).isSome = true :=
      List.find?_isSome.2 ⟨c, hc, by simpa using hcur c rfl⟩
    obtain ⟨a, ha⟩ := Option.isSome_iff_exists.1 hfound
    have hname := List.find?_some ha
    rw [beq_iff_eq] at hname
    have hmem := hp.mem_iff.1 (List.mem_of_find?_eq_some ha)
    rw [ha]
    by_contra hne
    refine hother (a := a) ?_ hname
    simp only [Option.toList_some, List.mem_append, List.mem_singleton] at hmem ⊢
    rcases hmem with (hm | rfl) | hm
    · exact .inl hm
    · exact absurd rfl hne
    · exact .inr hm

/-- In a copy of a template, the element of an attribute part has its attribute. -/
theorem Template.Copy.shownAt {t : Template} {label closing stopAt : Nat → NodeId}
    {part : AttributePart} {ps qs : List Part} {front rest : List TemplatePart}
    {c : TemplatePart} {ss rs : List (Shown NodeId)}
    (h : t.Copy kind exact label closing (ss ++ .attribute part.current :: rs) f) (hs : t.Sound)
    (hp : t.parts = front ++ c :: rest) (hl : front.length = ss.length)
    (hpart : Part.Fits objects known kind exact label stopAt (.attribute part) c
      (.attribute part.current))
    (hps : Part.FitsAll objects known kind exact label stopAt ps front ss)
    (hqs : Part.FitsAll objects known kind exact label stopAt qs rest rs) :
    part.ShownAt objects kind := by
  obtain ⟨-, hk, helement, hfaithful⟩ := hpart
  have hcm : c ∈ t.parts := by simp [hp]
  obtain ⟨tag, own, hkind, -⟩ := hs.attribute_part hcm hk
  obtain ⟨hn, -⟩ := Template.Stands.nodup_names hs hp hk hkind (hps.names_sublist c.index)
    (hqs.names_sublist c.index)
  have hview := h.kinds c.index (hs.index_mem hcm)
  rw [hkind, hp, Shown.attributesAt_attribute hl, if_pos rfl, ← helement] at hview
  simp only [NodeKind.extended, ← List.append_assoc] at hview
  obtain ⟨attributes, hattributes, hperm, -⟩ := NodeKind.view_element.1 hview
  exact ⟨⟨tag, attributes, hattributes,
    Attribute.find?_of_perm (fun a => AttributePart.name_of_current) hn hperm⟩, hfaithful⟩

mutual

/-- Where a part says what is in its region, the attributes there are written. -/
theorem NodePart.Fits.written {part : NodePart} {f : List (Branch NodeId)}
    (h : part.Fits objects known kind exact f) : part.Written objects kind := by
  match part with
  | .mk _ _ (.nested shared parts) =>
    obtain ⟨hhas, label, closing, shown, hcopy, hfits⟩ := h
    exact hfits.written [] [] [] hcopy (known.sound _ hhas) ⟨rfl, rfl⟩ rfl
  | .mk _ _ (.items parts) =>
    obtain ⟨cells, -, -, hcells⟩ := h
    exact hcells.written
  | .mk _ _ .empty | .mk _ _ (.text _) | .mk _ _ (.node _) | .mk _ _ (.pending _) => trivial

theorem NodePart.FitsCells.written {stop : NodeId} {parts : List NodePart} {cells : Cells}
    (h : NodePart.FitsCells objects known kind exact stop parts cells) :
    NodePart.WrittenAll objects kind parts := by
  match parts with
  | [] => trivial
  | part :: parts =>
    obtain ⟨n, f, rest, rfl, -, -, hpart, h⟩ := h
    exact ⟨hpart.written, h.written⟩

theorem Part.FitsAll.written {t : Template} {label closing : Nat → NodeId} {ps : List Part}
    {cs : List TemplatePart} {ss : List (Shown NodeId)} {f : List (Branch NodeId)}
    (qs : List Part) (front : List TemplatePart) (done : List (Shown NodeId))
    (h : Part.FitsAll objects known kind exact label (t.stopAt label closing) ps cs ss)
    (hcopy : t.Copy kind exact label closing (done ++ ss) f) (hs : t.Sound)
    (hdone : Part.FitsAll objects known kind exact label (t.stopAt label closing) qs front done)
    (hp : t.parts = front ++ cs) : Part.WrittenAll objects kind ps := by
  match ps with
  | [] => trivial
  | part :: ps =>
    obtain ⟨c, cs, b, ss, rfl, rfl, hpart, h⟩ := h
    have hrest := h.written (qs ++ [part]) (front ++ [c]) (done ++ [b])
      (by rwa [← List.append_cons]) hs
      (hdone.append ⟨c, [], b, [], rfl, rfl, hpart, rfl, rfl⟩) (by rw [hp, List.append_cons])
    match part with
    | .node part =>
      obtain ⟨g, -, -, -, -, hfits⟩ := hpart
      exact ⟨hfits.written, hrest⟩
    | .attribute part =>
      obtain rfl := hpart.1
      exact ⟨hcopy.shownAt hs hp hdone.length_eq.2 hpart hdone h, hrest⟩

end

/-- If parts are given their values without an error, so is the first of them. -/
theorem Patch.parts_node_succeeds {ps qs : List Part} {c : TemplatePart} {cs : List TemplatePart}
    {slots : Slots} {a : Applied NodePart}
    (ha : patch (s.holding ((slots.take c.valueIndex).2.left ++ Part.heldByAll qs ++
      Part.heldByAll ps)) w part (slots.take c.valueIndex).1 = a)
    (he : (Patch.parts patch s w qs (.node part :: ps) (c :: cs) slots).error = none) :
    a.error = none ∧ Patch.parts patch s w qs (.node part :: ps) (c :: cs) slots =
      Patch.parts patch s a.world (.node a.part :: qs) ps cs (slots.take c.valueIndex).2 := by
  rw [Patch.parts] at he ⊢
  simp only [ha] at he ⊢
  cases herror : a.error with
  | some e => simp [herror, Applied.map] at he
  | none => exact ⟨rfl, rfl⟩

namespace Patch.Stays

theorem items (hp : patch.Stays objects look strict) (hc : w.cache.Coherent objects known)
    (hlook : look.Within objects w.cache) {parts : List NodePart} {cells : Cells}
    (hfenced : List.Forall₂ (fun part c => w.tree.Fenced part.start part.stop c.2) parts cells)
    (hwritten : NodePart.WrittenAll objects w.tree.kind parts)
    (hcarries : NodePart.CarriesAll look strict parts cells values)
    (hechoes : Value.EchoesAll values values') (hf : ∀ v ∈ values, v.Faithful objects)
    (hf' : ∀ v ∈ values', v.Faithful objects) (start stop : NodeId) (done : List NodePart)
    (he : (Patch.items patch s start stop w done parts values').error = none) :
    (Patch.items patch s start stop w done parts values').Stays objects w ∧
      ∃ done', (Patch.items patch s start stop w done parts values').part = (done', []) ∧
        done'.length = done.length + parts.length := by
  induction parts generalizing known w cells values values' done with
  | nil =>
    obtain ⟨rfl, rfl⟩ := hcarries
    cases values' with
    | nil =>
      rw [Patch.items]
      exact ⟨.of_tree hc rfl (.refl _), done, rfl, rfl⟩
    | cons v vs => exact hechoes.elim
  | cons part parts ih =>
    obtain ⟨n, g, rest, value, others, rfl, rfl, hpart, hcarries⟩ := hcarries
    obtain ⟨hfirst, hfenced⟩ := List.forall₂_cons.1 hfenced
    cases values' with
    | nil => exact hechoes.elim
    | cons value' values' =>
      obtain ⟨hvalue, hvalues⟩ := List.forall_mem_cons.1 hf
      obtain ⟨hvalue', hvalues'⟩ := List.forall_mem_cons.1 hf'
      rw [Patch.items_cons] at he ⊢
      obtain ⟨herror, heq⟩ := Patch.itemsFrom_succeeds he
      rw [heq] at he ⊢
      have ha := hp hc hlook hfirst hwritten.1 hpart hechoes.1 hvalue hvalue' herror
      obtain ⟨known', hc'⟩ := ha.coherent
      obtain ⟨hrest, done', hdone, hlength⟩ := ih hc' (hlook.of_extends ha.extends_cache hc hc')
        (hfenced.imp fun _ _ h => h.of_core ha.core_eq) (ha.kind_eq ▸ hwritten.2) hcarries hechoes.2
        hvalues hvalues' _ he
      refine ⟨hrest.later ha.core_eq ha.extends_cache, done', hdone, hlength.trans ?_⟩
      simp only [List.length_cons]
      omega

/-- The attribute part of a copy that is given what it was given. -/
theorem attributePart {c : TemplatePart} {part : AttributePart} {slots slots' : Slots}
    (hshown : part.ShownAt objects w.tree.kind) {previous : List Value}
    (hprevious : part.previous = some previous)
    (hsame : previous = (slots.takeMany c.valueIndex part.strings.size).1 ∨
      Value.sameAll previous (slots.takeMany c.valueIndex part.strings.size).1 = true)
    (hechoes : Slots.Echo slots slots') (hf : slots.All (Value.Faithful objects)) (n : NodeId) :
    (part.setValues w.tree (slots'.takeMany c.valueIndex part.strings.size).1).2.1.core n =
      w.tree.core n :=
  hshown.core_setValues (hshown.shownBy_eq hprevious hsame
    (Value.faithfulAll_iff.2 (hf.takeMany trivial c.valueIndex part.strings.size).1)
    (hechoes.takeMany c.valueIndex part.strings.size).1) n

theorem parts (hp : patch.Stays objects look strict) (hc : w.cache.Coherent objects known)
    (hlook : look.Within objects w.cache) {t : Template} (ht : t.Sound)
    {label closing : Nat → NodeId} {ps : List Part} {front cs : List TemplatePart}
    {done ss : List (Shown NodeId)} {slots slots' : Slots}
    (hst : Stretch w.tree p before ((t.planting label closing (done ++ ss)).forest t.pattern) after)
    (hparts : t.parts = front ++ cs) (hl : front.length = done.length)
    (hwritten : Part.WrittenAll objects w.tree.kind ps)
    (hcarries : Part.CarriesAll look strict label (t.stopAt label closing) ps cs ss
      (slots.dealt cs))
    (hechoes : Slots.Echo slots slots') (hf : slots.All (Value.Faithful objects))
    (hf' : slots'.All (Value.Faithful objects)) (qs : List Part)
    (he : (Patch.parts patch s w qs ps cs slots').error = none) :
    (Patch.parts patch s w qs ps cs slots').Stays objects w := by
  induction ps generalizing known w front cs done ss slots slots' qs with
  | nil =>
    have heq : Patch.parts patch s w qs [] cs slots' = { part := qs.reverse ++ [], world := w } := by
      simp [Patch.parts]
    rw [heq]
    exact .of_tree hc rfl (.refl _)
  | cons part ps ih =>
    obtain ⟨c, cs, b, ss, taken, dealt, rfl, rfl, hdealt, hpart, hcarries⟩ := hcarries
    obtain ⟨rfl, rfl⟩ := List.cons.inj hdealt
    have hassoc : t.parts = (front ++ [c]) ++ cs := by simp [hparts]
    rcases part with part | part
    · obtain ⟨g, value, rfl, htaken, hk, hstart, hstop, hpart⟩ := hpart
      rw [TemplatePart.deal_node hk] at htaken hcarries
      obtain rfl : (slots.take c.valueIndex).1 = value := (List.cons.inj htaken).1
      have hfenced : w.tree.Fenced part.start part.stop g := by
        rw [hstart, hstop]
        exact ht.exists_stretch hst hparts hk hl
      obtain ⟨herror, heq⟩ := Patch.parts_node_succeeds rfl he
      rw [heq] at he ⊢
      have ha := hp hc hlook hfenced hwritten.1 hpart (hechoes c.valueIndex)
        (hf.take trivial c.valueIndex).1 (hf'.take trivial c.valueIndex).1 herror
      obtain ⟨known', hc'⟩ := ha.coherent
      rw [List.append_cons] at hst
      exact (ih hc' (hlook.of_extends ha.extends_cache hc hc') (hst.of_core fun n _ => ha.core_eq n)
        hassoc (by simp [hl]) (ha.kind_eq ▸ hwritten.2) hcarries (hechoes.take c.valueIndex)
        (hf.take trivial c.valueIndex).2 (hf'.take trivial c.valueIndex).2 _ he).later ha.core_eq
        ha.extends_cache
    · obtain ⟨hk, previous, hprevious, hsame⟩ := hpart
      rw [TemplatePart.deal_attribute hk] at hsame hcarries
      have hcore := attributePart hwritten.1 hprevious hsame hechoes hf
      have hkind : (part.setValues w.tree
          (slots'.takeMany c.valueIndex part.strings.size).1).2.1.kind = w.tree.kind :=
        funext fun n => Tree.kind_of_core (hcore n)
      rw [List.append_cons] at hst
      rw [Patch.parts] at he ⊢
      exact (ih (w := { w with
          tree := (part.setValues w.tree (slots'.takeMany c.valueIndex part.strings.size).1).2.1
          events := w.events ++
            (part.setValues w.tree (slots'.takeMany c.valueIndex part.strings.size).1).2.2 })
        hc hlook (hst.of_core fun n _ => hcore n) hassoc (by simp [hl]) (hkind ▸ hwritten.2) hcarries
        (hechoes.takeMany c.valueIndex part.strings.size).2
        (hf.takeMany trivial c.valueIndex part.strings.size).2
        (hf'.takeMany trivial c.valueIndex part.strings.size).2 _ he).later hcore (.refl _)

theorem update (hp : patch.Stays objects look strict) (hc : w.cache.Coherent objects known)
    (hlook : look.Within objects w.cache) {t : Template} (ht : t.Sound)
    {label closing : Nat → NodeId} {ps : List Part} {shown : List (Shown NodeId)}
    (hst : Stretch w.tree p before ((t.planting label closing shown).forest t.pattern) after)
    (hwritten : Part.WrittenAll objects w.tree.kind ps)
    (hcarries : Part.CarriesAll look strict label (t.stopAt label closing) ps t.parts shown
      (Slots.dealt t.parts (values.map some)))
    (hechoes : Value.EchoesAll values values') (hf : ∀ v ∈ values, v.Faithful objects)
    (hf' : ∀ v ∈ values', v.Faithful objects)
    (he : (Patch.update patch s w t ps values').error = none) :
    (Patch.update patch s w t ps values').Stays objects w := by
  unfold Patch.update at he ⊢
  by_cases hcount : t.valueCount ≠ values'.length ∧ s.strictValueCount = true
  · simp [hcount] at he
  simp only [if_neg hcount] at he ⊢
  obtain ⟨v, hv⟩ : ∃ v, v = if t.valueCount = values'.length then w
      else w.report (.valueCount t.valueCount values'.length) := ⟨_, rfl⟩
  have htree : v.tree = w.tree := by
    rw [hv]
    split <;> rfl
  have hcache : v.cache = w.cache := by
    rw [hv]
    split <;> rfl
  rw [← hv] at he ⊢
  have hst' : Stretch v.tree p before
      ((t.planting label closing ([] ++ shown)).forest t.pattern) after := htree ▸ hst
  exact (hp.parts (hcache ▸ hc) (hcache ▸ hlook) ht hst' (List.nil_append t.parts).symm rfl
    (htree ▸ hwritten) hcarries (Slots.echo_of_echoes hechoes) (Slots.all_map_some hf)
    (Slots.all_map_some hf') [] he).later (fun n => by rw [htree]) (hcache ▸ .refl _)

theorem template (hp : patch.Stays objects look strict) (hc : w.cache.Coherent objects known)
    (hlook : look.Within objects w.cache) (hfenced : w.tree.Fenced part.start part.stop f)
    (hwritten : part.Written objects w.tree.kind) {strings strings' : TemplateStrings}
    (hfragments : strings.fragments = strings'.fragments) {kind : TemplateKind}
    (hcarries : part.Carries look strict f (.template strings values kind))
    (hechoes : Value.EchoesAll values values')
    (hf : (Value.template strings values kind).Faithful objects)
    (hf' : (Value.template strings' values' kind).Faithful objects)
    (he : (Patch.template patch s w part ⟨strings', values', kind⟩).error = none) :
    (Patch.template patch s w part ⟨strings', values', kind⟩).Stays objects w := by
  obtain ⟨hstrings, hvalues⟩ := hf
  obtain ⟨start, stop, state⟩ := part
  match state with
  | .nested shared parts =>
    obtain ⟨hfound, hsound, -, label, closing, shown, rfl, hall⟩ := hcarries
    obtain ⟨alive, v, htree, hcache, heq⟩ := Patch.template_eq patch s w
      (.mk start stop (.nested shared parts)) ⟨strings', values', kind⟩
    obtain ⟨known', ha⟩ := hc.answers hf'.1 alive kind
    have hkept := hlook _ _ _ hstrings hfound
    rw [hc.get? hstrings, TemplateStrings.joined, hfragments] at hkept
    have houtcome := ha.found shared ((hc.get? hf'.1).trans hkept)
    have hc' : v.cache.Coherent objects known' := hcache ▸ ha.coherent
    have hextends : w.cache.Extends v.cache := hcache ▸ ha.extends_cache
    obtain ⟨p, left, right, hst⟩ := hfenced
    have hst' : Stretch (v.report .reusedInstance).tree p (left ++ [start])
        ((shared.template.planting label closing shown).forest shared.template.pattern)
        (stop :: right) := htree ▸ hst
    have hwritten' : Part.WrittenAll objects (v.report .reusedInstance).tree.kind parts :=
      htree ▸ hwritten
    rw [heq, houtcome] at he ⊢
    simp only [Patch.answered, NodePart.state, if_true] at he ⊢
    have hrest := hp.update (s := s) (w := v.report .reusedInstance) hc'
      (hlook.of_extends hextends hc hc') hsound hst' hwritten' hall hechoes
      (Value.faithfulAll_iff.1 hvalues) (Value.faithfulAll_iff.1 hf'.2) he
    exact (hrest.later (fun n => congrArg (Tree.core · n) htree) hextends).map fun ps =>
      (NodePart.mk start stop (.nested shared parts)).withState (.nested shared ps)
  | .empty | .text _ | .items _ | .node _ | .pending _ => exact hcarries.elim

theorem iterable (hp : patch.Stays objects look strict) (hc : w.cache.Coherent objects known)
    (hlook : look.Within objects w.cache) (hfenced : w.tree.Fenced part.start part.stop f)
    (hwritten : part.Written objects w.tree.kind)
    (hcarries : part.Carries look strict f (.iterable values))
    (hechoes : Value.EchoesAll values values') (hf : ∀ v ∈ values, v.Faithful objects)
    (hf' : ∀ v ∈ values', v.Faithful objects)
    (he : (Patch.iterable patch s w part values').error = none) :
    (Patch.iterable patch s w part values').Stays objects w := by
  obtain ⟨start, stop, state⟩ := part
  match state with
  | .empty =>
    obtain ⟨rfl, rfl⟩ := hcarries
    cases values' with
    | cons v vs => exact hechoes.elim
    | nil =>
      have hclear := NodePart.clear_of_fenced hfenced
      rw [Patch.iterable_other _ _ _ (fun ps hps => by cases hps), hclear, Patch.items]
      exact .of_tree hc hclear (.refl _)
  | .items parts =>
    obtain ⟨cells, hlaid, hplaced, hall⟩ := hcarries
    obtain ⟨p, left, right, hst⟩ := hfenced
    have hlaid' : Cells.branches ([] ++ cells) = .node start [] :: f := hlaid
    have heq : Patch.iterable patch s w (.mk start stop (.items parts)) values' =
        Patch.finish (.mk start stop (.items parts))
          (Patch.items patch s start stop w [] parts values') :=
      Patch.iterable_items patch s w rfl values'
    rw [heq] at he ⊢
    obtain ⟨a, ha⟩ : ∃ a, a = Patch.items patch s start stop w [] parts values' := ⟨_, rfl⟩
    rw [← ha] at he ⊢
    have herror : a.error = none := (Patch.error_finish _ a).symm.trans he
    obtain ⟨hrest, done, hdone, hlength⟩ := hp.items hc hlook (hplaced.fenced hlaid' hst) hwritten
      hall hechoes hf hf' start stop [] (ha ▸ herror)
    rw [← ha] at hrest hdone
    obtain ⟨last, others, rfl⟩ : ∃ last others, done = last :: others :=
      List.exists_cons_of_ne_nil fun hnil => hplaced.ne_nil hlaid (List.length_eq_zero_iff.1 (by
        rw [hnil] at hlength
        simpa using hlength.symm))
    obtain ⟨⟨_, _⟩, u, error⟩ := a
    obtain rfl : error = none := herror
    obtain ⟨rfl, rfl⟩ := Prod.mk.inj hdone
    exact ⟨hrest.core_eq, hrest.coherent, hrest.extends_cache⟩
  | .text _ | .nested _ _ | .node _ | .pending _ => exact hcarries.elim

theorem step (hp : patch.Stays objects look strict) :
    (Patch.step patch).Stays objects look strict := by
  intro s known w part f value value' hc hlook hfenced hwritten hcarries hechoes hf hf' he
  match value, value' with
  | .primitive q, .primitive q' =>
    obtain ⟨start, stop, state⟩ := part
    match state with
    | .text shown =>
      refine .of_rests (NodePart.rests_setPrimitive hc rfl ?_)
      rcases hcarries with rfl | hsame
      · exact hechoes
      · exact Primitive.same_trans hsame hechoes
    | .empty | .nested _ _ | .items _ | .node _ | .pending _ => exact hcarries.elim
  | .absent, .absent =>
    obtain ⟨start, stop, state⟩ := part
    match state with
    | .text shown =>
      obtain rfl : shown = .null := hcarries
      exact .of_rests (NodePart.rests_setPrimitive hc rfl rfl)
    | .empty | .nested _ _ | .items _ | .node _ | .pending _ => exact hcarries.elim
  | .node fragment, .node fragment' =>
    obtain ⟨start, stop, state⟩ := part
    match state with
    | .node shown =>
      have hid : shown.identity = fragment'.identity := Eq.trans hcarries hechoes
      have hstate : (NodePart.mk start stop (.node shown)).state = .node shown := rfl
      exact .of_rests (NodePart.rests_setNode hc hstate hid)
    | .empty | .text _ | .nested _ _ | .items _ | .pending _ => exact hcarries.elim
  | .iterable values, .iterable values' =>
    exact hp.iterable hc hlook hfenced hwritten hcarries hechoes (Value.faithfulAll_iff.1 hf)
      (Value.faithfulAll_iff.1 hf') he
  | .template strings values kind, .template strings' values' kind' =>
    obtain ⟨hfragments, rfl, hvalues⟩ := hechoes
    exact hp.template hc hlook hfenced hwritten hfragments hcarries hvalues hf hf' he

end Patch.Stays

/-- Wherever the recursion is cut off, a value that is applied and says what a part carries touches
no node. -/
theorem Patch.stays_within (depth : Nat) : (Patch.within depth).Stays objects look strict := by
  induction depth with
  | zero =>
    intro s known w part f value value' _ _ _ _ _ _ _ _ he
    cases he
  | succ depth ih => exact ih.step

end LiveMarkup
