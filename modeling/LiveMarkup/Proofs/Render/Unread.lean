import LiveMarkup.Proofs.Render.Fulfilled
import LiveMarkup.Proofs.Render.Origin
import LiveMarkup.Proofs.Render.Rerendering
import LiveMarkup.Proofs.Template.Ranges
import LiveMarkup.Proofs.Value.Repeating

set_option autoImplicit false

/-!
Values that no part reads. A part takes the values of its own range, in whatever order the ranges
come and whatever was taken from them before. So two lists of values that are the same on the ranges
come to the same, however long they are and whatever they have elsewhere.
-/

namespace LiveMarkup

variable {objects : Objects} {known : Registry} {s s' : Setting} {w w' : World} {r : Renderer}
  {root : RenderRoot} {values values' : List Value}

namespace Slots

variable {P : Nat → Prop} {slots slots' : Slots}

/-- The same is left under some indices. -/
def Agree (P : Nat → Prop) (slots slots' : Slots) : Prop :=
  ∀ i, P i → (slots.take i).1 = (slots'.take i).1

theorem agree_map_some (h : ∀ i, P i → values[i]?.getD .null = values'[i]?.getD .null) :
    Agree P (values.map some) (values'.map some) := by
  intro i hi
  rw [take_map_some, take_map_some]
  exact h i hi

theorem Agree.take (h : Agree P slots slots') (i : Nat) :
    Agree P (slots.take i).2 (slots'.take i).2 := by
  intro j hj
  rw [take_take, take_take]
  split
  · rfl
  · exact h j hj

theorem Agree.takeMany (h : Agree P slots slots') {i n : Nat} (hP : ∀ j ∈ List.range' i n, P j) :
    (slots.takeMany i n).1 = (slots'.takeMany i n).1 ∧
      Agree P (slots.takeMany i n).2 (slots'.takeMany i n).2 := by
  induction n generalizing slots slots' i with
  | zero => exact ⟨rfl, h⟩
  | succ n ih =>
    rw [List.range'_succ] at hP
    obtain ⟨hfirst, hP⟩ := List.forall_mem_cons.1 hP
    obtain ⟨hrest, hleft⟩ := ih (h.take i) hP
    exact ⟨congrArg₂ List.cons (h i hfirst) hrest, hleft⟩

end Slots

/-- The parts of a template read the same of two lists of values. A value that is missing is null. -/
def Template.ReadsSame (t : Template) (values values' : List Value) : Prop :=
  ∀ c ∈ t.parts, ∀ i ∈ c.values, values[i]?.getD .null = values'[i]?.getD .null

namespace Template.ReadsSame

variable {t : Template}

theorem symm (h : t.ReadsSame values values') : t.ReadsSame values' values :=
  fun c hc i hi => (h c hc i hi).symm

/-- Values beyond the holes of a template. -/
theorem take (ht : t.Compiled) (values : List Value) :
    t.ReadsSame values (values.take t.valueCount) := by
  obtain ⟨strings, kind, detectDocuments, hcompile⟩ := ht
  intro c hc i hi
  have hle := Template.add_size_le hcompile hc
  rw [TemplatePart.values, List.mem_range'_1] at hi
  rw [List.getElem?_take_of_lt (by omega)]

/-- Nulls at the end that are left out. -/
theorem append_null (values : List Value) (n : Nat) :
    t.ReadsSame values (values ++ List.replicate n .null) := by
  intro c _ i _
  rw [List.getElem?_append]
  split
  · rfl
  · rename_i hge
    rw [List.getElem?_eq_none (by omega), List.getElem?_replicate]
    split <;> rfl

/-- The value of a hole that no part stands for. -/
theorem set {i : Nat} (hi : ∀ c ∈ t.parts, i ∉ c.values) (values : List Value) (v : Value) :
    t.ReadsSame values (values.set i v) := by
  intro c hc j hj
  rw [List.getElem?_set_ne]
  rintro rfl
  exact hi c hc hj

end Template.ReadsSame

/-- The values that some part reads, and null for the others. -/
def Template.masked (t : Template) (values : List Value) : List Value :=
  values.mapIdx fun i v => if t.parts.any (i ∈ ·.values) then v else .null

theorem Template.readsSame_masked (t : Template) (values : List Value) :
    t.ReadsSame values (t.masked values) := by
  intro c hc i hi
  have hany : t.parts.any (i ∈ ·.values) = true := List.any_eq_true.2 ⟨c, hc, by simpa using hi⟩
  rw [masked, List.getElem?_mapIdx]
  cases values[i]? with
  | none => rfl
  | some v => rw [Option.map_some, if_pos hany]

theorem Template.mem_masked {t : Template} {v : Value} (hv : v ∈ t.masked values) :
    v = .null ∨ v ∈ values ∧ ∃ c ∈ t.parts, ∃ i ∈ c.values, values[i]?.getD .null = v := by
  obtain ⟨i, hi, rfl⟩ := List.mem_mapIdx.1 hv
  split
  · rename_i hany
    obtain ⟨c, hc, hread⟩ := List.any_eq_true.1 hany
    refine .inr ⟨List.getElem_mem hi, c, hc, i, by simpa using hread, ?_⟩
    rw [List.getElem?_eq_getElem hi, Option.getD_some]
  · exact .inl rfl

/-- A part of a copy takes as many values as the part of the template. -/
theorem Part.FitsAll.sizes {kind : NodeId → NodeKind} {exact : Bool} {label stop : Nat → NodeId}
    {ps : List Part} {cs : List TemplatePart} {shown : List (Shown NodeId)}
    (h : Part.FitsAll objects known kind exact label stop ps cs shown) :
    ps.map Part.size = cs.map TemplatePart.size := by
  induction ps generalizing cs shown with
  | nil =>
    obtain ⟨rfl, -⟩ := h
    rfl
  | cons p ps ih =>
    obtain ⟨c, cs, f, shown, rfl, -, hp, h⟩ := h
    rw [List.map_cons, List.map_cons, ih h]
    congr 1
    match p, hp with
    | .node part, ⟨_, _, hkind, _⟩ => rw [Part.size, TemplatePart.size, hkind]
    | .attribute part, ⟨_, hkind, _, _⟩ => rw [Part.size, TemplatePart.size, hkind]

namespace Likeness.Follows

variable {patch patch' : Patch}

/-- Two runs that give the parts of a copy the values of two lists, of which the same is left for the
parts to come. -/
theorem parts_of_agree (h : (holders objects).Follows patch patch')
    (hs : (holders objects).settings s s') (hw : (holders objects).worlds w w') {P : Nat → Prop}
    {ps done : List Part} {cs : List TemplatePart} {slots slots' : Slots}
    (hagree : slots.Agree P slots') (hsizes : ps.map Part.size = cs.map TemplatePart.size)
    (hread : ∀ c ∈ cs, ∀ i ∈ c.values, P i) (hslots : slots.All (Value.Faithful objects))
    (hend : (Patch.parts patch s w done ps cs slots).Ended) :
    (holders objects).Alike (Patch.parts patch s w done ps cs slots)
      (Patch.parts patch' s' w' done ps cs slots') := by
  induction ps generalizing w w' done cs slots slots' with
  | nil =>
    simp only [Patch.parts]
    exact .of_worlds hw _ _
  | cons p ps ih =>
    cases cs with
    | nil =>
      simp only [Patch.parts]
      exact .of_worlds hw _ _
    | cons c cs =>
      rw [List.map_cons, List.map_cons, List.cons_eq_cons] at hsizes
      obtain ⟨hsize, htail⟩ := hsizes
      obtain ⟨hfirst, hread⟩ := List.forall_mem_cons.1 hread
      cases p with
      | «attribute» part =>
        have hrange : ∀ i ∈ List.range' c.valueIndex part.strings.size, P i := by
          rwa [TemplatePart.values, ← hsize] at hfirst
        obtain ⟨hvalues, hagree⟩ := hagree.takeMany hrange
        have htaken := (hslots.takeMany (P := Value.Faithful objects) trivial c.valueIndex
          part.strings.size).2
        simp only [Patch.parts, (holders objects).tree_eq hw, ← hvalues] at hend ⊢
        exact ih ((holders objects).edited hw _ _) hagree htail hread htaken hend
      | node part =>
        have hindex : P c.valueIndex := by
          rw [TemplatePart.values, ← hsize] at hfirst
          exact hfirst _ (List.mem_singleton_self _)
        have hvalue := hagree _ hindex
        obtain ⟨hfaithful, htaken⟩ :=
          hslots.take (P := Value.Faithful objects) trivial c.valueIndex
        -- What is left in the slots differs, but what else there is does not matter.
        have hs' : (holders objects).settings
            (s.holding ((slots.take c.valueIndex).2.left ++ Part.heldByAll done ++
              Part.heldByAll ps))
            (s'.holding ((slots'.take c.valueIndex).2.left ++ Part.heldByAll done ++
              Part.heldByAll ps)) := hs
        have ha := h part hs' hw hfaithful
        simp only [Patch.parts, ← hvalue] at hend ⊢
        generalize patch (s.holding _) w part _ = a at ha hend ⊢
        generalize patch' (s'.holding _) w' part _ = a' at ha ⊢
        cases he : a.error with
        | some e =>
          simp only [he] at hend
          have ha := ha hend
          simp only [ha.error_eq, he]
          exact ha.map _
        | none =>
          simp only [he] at hend
          have ha := ha (.of_none he)
          simp only [ha.error_eq, he, ha.part_eq]
          exact ih ha.worlds (hagree.take _) htail hread htaken hend

theorem update_of_readsSame (h : (holders objects).Follows patch patch')
    (hs : (holders objects).settings s s') (hw : (holders objects).worlds w w')
    (hlenient : s.strictValueCount = false) {t : Template} {ps : List Part}
    (hsizes : ps.map Part.size = t.parts.map TemplatePart.size) (hread : t.ReadsSame values values')
    (hvalues : ∀ v ∈ values, v.Faithful objects)
    (hend : (Patch.update patch s w t ps values).Ended) :
    (holders objects).Alike (Patch.update patch s w t ps values)
      (Patch.update patch' s' w' t ps values') := by
  have hlenient' : s'.strictValueCount = false := ((holders objects).strict_eq hs).trans hlenient
  unfold Patch.update at hend ⊢
  simp only [hlenient, hlenient', Bool.false_eq_true, and_false, if_false] at hend ⊢
  refine h.parts_of_agree hs ?_ (P := fun i => ∃ c ∈ t.parts, i ∈ c.values)
    (Slots.agree_map_some fun i ⟨c, hc, hi⟩ => hread c hc i hi) hsizes
    (fun c hc i hi => ⟨c, hc, hi⟩) (Slots.all_map_some hvalues) hend
  split <;> split <;> exact hw

end Likeness.Follows

namespace RenderRoot

/-- An update whose recursion is cut off at a depth. -/
def updateWithin (depth : Nat) (root : RenderRoot) (r : Renderer) (s : Setting)
    (values : List Value) : Updated :=
  let s := { s with strictValueCount := r.config.strictValueCount }
  let applied := Patch.update (.within depth) s (root.world r) root.template.template root.parts values
  ⟨{ root with tree := applied.world.tree, parts := applied.part }, applied.error⟩

theorem update_eq_updateWithin (root : RenderRoot) (r : Renderer) (s : Setting)
    (values : List Value) : (root.update r s values).result =
      root.updateWithin (Patch.depthFor s (Part.depthOfAll root.parts) (Value.weights values)) r s
        values := rfl

/-- Two updates that may not go equally deep, of which the one that is cut off first is not. -/
theorem updateWithin_agreeing {label closing : Nat → NodeId} {shown : List (Shown NodeId)}
    {f : List (Branch NodeId)} (hst : root.Stands objects known false label closing shown f)
    (hc : r.cache.Coherent objects known) (hlenient : r.config.strictValueCount = false)
    (hs : s.deferreds.Faithful objects) (hvalues : ∀ v ∈ values, v.Faithful objects)
    (hread : root.template.template.ReadsSame values values') {depth depth' : Nat}
    (hle : depth ≤ depth') (hend : (root.updateWithin depth r s values).error ≠ some .endlessValue) :
    root.updateWithin depth' r s values' = root.updateWithin depth r s values := by
  have hs' : (Likeness.holders objects).settings
      { s with strictValueCount := r.config.strictValueCount }
      { s with strictValueCount := r.config.strictValueCount } := ⟨rfl, rfl, hs⟩
  have hw : (Likeness.holders objects).worlds (root.world r) (root.world r) :=
    ⟨rfl, ⟨rfl, rfl, rfl, fun _ => rfl⟩, ⟨known, hc⟩, known, hc⟩
  have halike := ((Likeness.holders objects).follows_within hle).update_of_readsSame hs' hw
    hlenient hst.fits.sizes hread hvalues hend
  simp only [updateWithin, halike.part_eq, halike.error_eq, halike.worlds.1]

/-- An update is not cut off by what no part reads. -/
theorem update_ends_of_read {label closing : Nat → NodeId} {shown : List (Shown NodeId)}
    {f : List (Branch NodeId)} (hst : root.Stands objects known false label closing shown f)
    (hc : r.cache.Coherent objects known) (hlenient : r.config.strictValueCount = false)
    (hs : s.deferreds.Faithful objects) (hvalues : ∀ v ∈ values, v.Faithful objects)
    (hgrounded : ∀ c ∈ root.template.template.parts, ∀ i ∈ c.values,
      (values[i]?.getD .null).Grounded s.deferreds) :
    (root.update r s values).result.error ≠ some .endlessValue := by
  obtain ⟨depth, hdepth⟩ : ∃ depth, depth =
    Patch.depthFor s (Part.depthOfAll root.parts) (Value.weights values) := ⟨_, rfl⟩
  have hlt := Patch.weight_lt_depthFor s (Part.depthOfAll root.parts) (Value.weights values)
  rw [← hdepth] at hlt
  rw [update_eq_updateWithin, ← hdepth]
  -- With null for the values that no part reads every value ends.
  have hends : (root.updateWithin depth r s (root.template.template.masked values)).error ≠
      some .endlessValue := by
    refine (Patch.endsOn_within s.deferreds depth).update
      (s := { s with strictValueCount := r.config.strictValueCount }) (w := root.world r) rfl
      (.null (by omega)) _ _ fun v hv => ?_
    obtain rfl | ⟨hv, c, hc, i, hi, rfl⟩ := Template.mem_masked hv
    · exact .null (by omega)
    · have hle := Value.weight_le_weights hv
      exact .of_grounded (hgrounded c hc i hi) (by omega)
  have hfaithful : ∀ v ∈ root.template.template.masked values, v.Faithful objects := by
    intro v hv
    obtain rfl | ⟨hv, -⟩ := Template.mem_masked hv
    · trivial
    · exact hvalues v hv
  rw [updateWithin_agreeing hst hc hlenient hs hfaithful
    (Template.readsSame_masked _ values).symm (Nat.le_refl depth) hends]
  exact hends

end RenderRoot

/-- A root to which calls have led, updated without counting the values by two lists of which its
parts read the same. However deep the recursion may go, the two come to the same or both are cut off;
so two updates that are not cut off come to the same, and none is if what the parts read leads to
nothing that leads back to itself. The parts read the same without surplus values, with nulls at the
end, and with any value for a hole that is ignored, if no hole separates those of an attribute. -/
theorem Host.Reachable.update_agreeing {h : Host} (hh : h.Reachable objects) (hroot : root ∈ h.roots)
    (hr : r ∈ h.renderers) (hlenient : r.config.strictValueCount = false)
    (hs : s.deferreds.Faithful objects) (hvalues : ∀ v ∈ values, v.Faithful objects)
    (hvalues' : ∀ v ∈ values', v.Faithful objects)
    (hread : root.template.template.ReadsSame values values') :
    (∀ depth, root.updateWithin depth r s values = root.updateWithin depth r s values' ∨
      (root.updateWithin depth r s values).error = some .endlessValue ∧
        (root.updateWithin depth r s values').error = some .endlessValue) ∧
    ((root.update r s values).result.error ≠ some .endlessValue →
      (root.update r s values').result.error ≠ some .endlessValue →
      (root.update r s values).result = (root.update r s values').result) ∧
    ((∀ c ∈ root.template.template.parts, ∀ i ∈ c.values,
        (values[i]?.getD .null).Grounded s.deferreds) →
      (root.update r s values).result = (root.update r s values').result ∧
        (root.update r s values).result.error ≠ some .endlessValue) ∧
    ∀ vs : List Value,
      root.template.template.ReadsSame vs (vs.take root.template.template.valueCount) ∧
      (∀ n, root.template.template.ReadsSame vs (vs ++ List.replicate n .null)) ∧
      ∀ strings kind detectDocuments,
        (Template.compile strings kind detectDocuments).outcome = .ok root.template.template →
        Hole.Together (Scan.ofStrings strings kind).holes →
        ∀ i, Template.Ignored strings kind detectDocuments i →
          ∀ v, root.template.template.ReadsSame vs (vs.set i v) := by
  obtain ⟨known, hsound⟩ := hh.sound
  obtain ⟨i, hi⟩ := List.getElem?_of_mem hr
  obtain ⟨label, closing, shown, f, hst⟩ := hsound.roots root hroot
  have hc := (hsound.renderers i r hi).2
  have hforth {depth depth' : Nat} (hle : depth ≤ depth')
      (hend : (root.updateWithin depth r s values).error ≠ some .endlessValue) :
      root.updateWithin depth' r s values' = root.updateWithin depth r s values :=
    RenderRoot.updateWithin_agreeing hst hc hlenient hs hvalues hread hle hend
  have hback {depth depth' : Nat} (hle : depth ≤ depth')
      (hend : (root.updateWithin depth r s values').error ≠ some .endlessValue) :
      root.updateWithin depth' r s values = root.updateWithin depth r s values' :=
    RenderRoot.updateWithin_agreeing hst hc hlenient hs hvalues' hread.symm hle hend
  have hboth (hend : (root.update r s values).result.error ≠ some .endlessValue)
      (hend' : (root.update r s values').result.error ≠ some .endlessValue) :
      (root.update r s values).result = (root.update r s values').result := by
    rw [RenderRoot.update_eq_updateWithin] at hend hend' ⊢
    rw [RenderRoot.update_eq_updateWithin]
    rcases Nat.le_total (Patch.depthFor s (Part.depthOfAll root.parts) (Value.weights values))
      (Patch.depthFor s (Part.depthOfAll root.parts) (Value.weights values')) with hle | hle
    · exact (hforth hle hend).symm
    · exact hback hle hend'
  refine ⟨fun depth => ?_, hboth, fun hgrounded => ?_, fun vs =>
    ⟨.take (hh.compiled.roots root hroot) vs, .append_null vs,
      fun _ _ _ hcompile ht i hi v =>
        .set (fun c hc => Template.not_mem_values_of_ignored hcompile ht hi hc) vs v⟩⟩
  · by_cases hend : (root.updateWithin depth r s values).error = some .endlessValue
    · by_cases hend' : (root.updateWithin depth r s values').error = some .endlessValue
      · exact .inr ⟨hend, hend'⟩
      · exact .inl (hback (Nat.le_refl depth) hend')
    · exact .inl (hforth (Nat.le_refl depth) hend).symm
  · have hends := RenderRoot.update_ends_of_read hst hc hlenient hs hvalues hgrounded
    have hends' := RenderRoot.update_ends_of_read hst hc hlenient hs hvalues' fun c hc i hi =>
      hread c hc i hi ▸ hgrounded c hc i hi
    exact ⟨hboth hends hends', hends⟩

/-- A paragraph is given another class and another text, and a value more than it has holes. -/
theorem Host.withParagraph_update_agreeing :
    ∃ root ∈ Host.withParagraph.roots, ∃ r ∈ Host.withParagraph.renderers,
      let values : List Value := [.primitive (.str "other"), .primitive (.str "two")]
      let surplus := values ++ [.iterable [.primitive (.str "three")]]
      (root.update r {} surplus).result = (root.update r {} values).result ∧
        (root.update r {} surplus).result.error ≠ some .endlessValue := by
  obtain ⟨hroots, hrenderers⟩ := Host.withParagraph_length
  have hlenient : Host.withParagraph.renderers[0].config.strictValueCount = false := by
    decide +kernel +revert
  have hcount : Host.withParagraph.roots[0].template.template.valueCount = 2 := by
    decide +kernel +revert
  have hread := Template.ReadsSame.take
    (Host.reachable_withParagraph.compiled.roots _ (List.getElem_mem hroots))
    [.primitive (.str "other"), .primitive (.str "two"), .iterable [.primitive (.str "three")]]
  rw [hcount] at hread
  obtain ⟨-, -, hgrounded, -⟩ := Host.Reachable.update_agreeing (s := {})
    Host.reachable_withParagraph (List.getElem_mem hroots) (List.getElem_mem hrenderers) hlenient
    Setting.faithful_empty (by simp [Value.Faithful, Value.FaithfulAll])
    (by simp [Value.Faithful]) hread
  refine ⟨_, List.getElem_mem hroots, _, List.getElem_mem hrenderers, hgrounded fun c _ i _ => ?_⟩
  rcases i with _ | _ | _ | i <;> exact Value.grounded_of_nil rfl

/-- A title that is written twice, with a hole between that is in neither. -/
def ignoredTitle : TemplateStrings :=
  .ofFragments ⟨0⟩ ["<a title=\"", " " ++ marker ++ "\" ", " title=", "></a>"]

/-- A host that shows a link with such a title. -/
def Host.withIgnored : Host :=
  Host.run {} [.newRenderer {},
    .renderRoot 0 {} ⟨ignoredTitle, [.primitive (.str "x"), .primitive (.str "y"), .absent], .html⟩]

/-- The second value is ignored, and yet the title shows it: the two holes of the title are not
next to each other. -/
theorem Host.withIgnored_shown :
    Host.withIgnored.Reachable (.only ignoredTitle) ∧
      Template.Ignored ignoredTitle .html true 1 ∧
      ∃ root ∈ Host.withIgnored.roots, ∃ r ∈ Host.withIgnored.renderers,
        r.config.strictValueCount = false ∧
        let html (second : String) := (root.update r {}
          [.primitive (.str "x"), .primitive (.str second), .absent]).result.root.toHtml {}
        html "y" = "<a title=\"x y\"></a>" ∧ html "w" = "<a title=\"x w\"></a>" := by
  have hlength : 0 < Host.withIgnored.roots.length ∧ 0 < Host.withIgnored.renderers.length := by
    decide +kernel
  have hreachable : Host.withIgnored.Reachable (.only ignoredTitle) :=
    Host.reachable_showing {} Setting.faithful_empty ⟨rfl, trivial, trivial, trivial, trivial⟩
  refine ⟨hreachable, .inl ⟨.tag, by decide +kernel⟩, _, List.getElem_mem hlength.1, _,
    List.getElem_mem hlength.2, ?_⟩
  decide +kernel +revert

end LiveMarkup
