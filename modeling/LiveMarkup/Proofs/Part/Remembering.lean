import LiveMarkup.Proofs.Part.Attribute

set_option autoImplicit false

/-!
What an attribute part remembers. A part skips values that count as the same as the last ones it
was computed from, so its attribute could be out of date; it is not: on an element that nothing else
gives the attribute to, the last values alone say whether it is there and what it is.
-/

namespace LiveMarkup

theorem Value.attributeTexts_fst (values : List Value) :
    (Value.attributeTexts values).1 = values.map (·.attributeText.1) := by
  induction values with
  | nil => rfl
  | cons v vs ih => rw [attributeTexts, List.map_cons, ih]

theorem Attribute.renewed_append {name : String} {own : List Attribute}
    {cur new : Option Attribute} (hcur : ∀ a ∈ cur, a.name = name) (hnew : ∀ a ∈ new, a.name = name)
    (hn : name ∉ own.map (·.name)) :
    Attribute.renewed name new (own ++ cur.toList) = own ++ new.toList := by
  induction own with
  | nil =>
    cases cur with
    | none => exact renewed_eq hnew hn
    | some c =>
      have hc : (c.name == name) = true := by simp [hcur c rfl]
      cases new with
      | none => simp [renewed, hc]
      | some a =>
        obtain rfl := hnew a rfl
        rw [renewed, Option.toList_some, List.nil_append, Tree.overwrite, if_pos hc]
        rfl
  | cons o own ih =>
    rw [List.map_cons, List.mem_cons, not_or] at hn
    have ho : (o.name == name) = false := by simpa using Ne.symm hn.1
    have h := ih hn.2
    cases new with
    | none =>
      rw [renewed] at h ⊢
      rw [List.cons_append, List.eraseP_cons, ho, cond_false, h, List.cons_append]
    | some a =>
      rw [renewed] at h ⊢
      rw [List.cons_append, Tree.overwrite, ho, if_neg Bool.false_ne_true, h, List.cons_append]

namespace Tree

variable {t : Tree} {id : NodeId} {tag : String} {attributes : List Attribute}

/-- One node is something else afterwards; every other node is as it was. -/
def Rewritten (t t' : Tree) (id : NodeId) (kind : NodeKind) : Prop :=
  ∀ n, t'.node n = if n = id then { t.node id with kind } else t.node n

theorem Rewritten.refl (t : Tree) (id : NodeId) : Rewritten t t id (t.kind id) := by
  intro n
  split
  · rename_i h
    rw [h]
    rfl
  · rfl

theorem Rewritten.kind_eq {t' : Tree} {kind : NodeKind} (h : Rewritten t t' id kind) :
    t'.kind id = kind := by
  rw [Tree.kind, h id, if_pos rfl]

theorem rewritten_setKind (hk : t.kind id = .element tag attributes) (kind : NodeKind) :
    Rewritten t (t.setKind id kind) id kind := by
  have hlt : id.index < t.nodes.size := by
    by_contra hge
    have hdead : t.kind id = .fragment := by
      rw [Tree.kind, node, Array.getD_eq_getD_getElem?, Array.getElem?_eq_none (by omega)]
      rfl
    exact NodeKind.noConfusion (hk.symm.trans hdead)
  intro n
  have h := node_put t id n { t.node id with kind }
  simp only [hlt, and_true] at h
  exact h

theorem rewritten_setAttribute (hk : t.kind id = .element tag attributes) (a : Attribute) :
    Rewritten t (t.setAttribute id a.name a.value).1 id
      (.element tag (Attribute.renewed a.name (some a) attributes)) := by
  have h := rewritten_setKind hk (.element tag (overwrite a.name a.value attributes))
  rw [setAttribute, hk]
  exact h

theorem rewritten_removeAttribute (hk : t.kind id = .element tag attributes) (name : String) :
    Rewritten t (t.removeAttribute id name).1 id
      (.element tag (Attribute.renewed name none attributes)) := by
  rw [removeAttribute, hk, Attribute.renewed]
  cases hfind : attributes.find? (·.name == name) with
  | some a =>
    have h := rewritten_setKind hk (.element tag (attributes.eraseP (·.name == name)))
    simpa only [hfind] using h
  | none =>
    have hkept : attributes.eraseP (·.name == name) = attributes := by
      refine List.eraseP_of_forall_not fun a hm => ?_
      simpa using List.find?_eq_none.1 hfind a hm
    have h := Rewritten.refl t id
    rw [hk] at h
    simpa only [hfind, hkept] using h

end Tree

namespace AttributePart

variable {objects : Objects} {t : Tree} {part : AttributePart} {tag : String}
  {own : List Attribute} {values : List Value}

/-- The text that values give an attribute: each segment with the text of its value behind it, or
the whole value, the items of an iterable without anything between them. -/
def spelled : AttributeStrings → List Value → String
  | .whole, .iterable items :: _ => String.join (items.map (·.attributeText.1))
  | .whole, values => String.join (values.map (·.attributeText.1))
  | .interpolated segments, values =>
    String.join (List.zipWith (· ++ ·) segments (values.map (·.attributeText.1) ++ [""]))

theorem interleave_fst {segments : List String} (h : values.length + 1 = segments.length) :
    (interleave segments values).1 =
      String.join (List.zipWith (· ++ ·) segments (values.map (·.attributeText.1) ++ [""])) := by
  induction values generalizing segments with
  | nil =>
    obtain ⟨last, rfl⟩ := List.length_eq_one_iff.1 h.symm
    simp [interleave, String.join]
  | cons v vs ih =>
    obtain ⟨segment, rest, rfl⟩ := List.exists_cons_of_length_eq_add_one h.symm
    have h : vs.length + 1 = rest.length := by simpa using h
    obtain ⟨next, segments, rfl⟩ := List.exists_cons_of_length_eq_add_one h.symm
    rw [interleave, ih h, List.map_cons, List.cons_append, List.zipWith_cons_cons,
      String.join_cons]
    exact List.cons_ne_nil _ _

theorem text_fst {strings : AttributeStrings} (h : values.length = strings.size) :
    (text strings values).1 = spelled strings values := by
  cases strings with
  | whole =>
    obtain ⟨v, rfl⟩ := List.length_eq_one_iff.1 h
    cases v with
    | iterable items => rw [text, spelled, Value.attributeTexts_fst]
    | _ => simp [text, spelled, String.join]
  | interpolated segments =>
    rw [AttributeStrings.size] at h
    cases segments with
    | nil => rfl
    | cons segment segments => exact interleave_fst (by simpa using h)

theorem toList_shownBy {name : String} {strings : AttributeStrings}
    (h : values.length = strings.size) :
    (shownBy name strings values).toList =
      if values.any Value.isAbsent then [] else [⟨name, spelled strings values⟩] := by
  rw [shownBy, text_fst h]
  split <;> rfl

/-- An element shows what a part gave it last, behind the attributes of its own. -/
structure InStep (objects : Objects) (t : Tree) (part : AttributePart) (tag : String)
    (own : List Attribute) : Prop where
  kind_eq : t.kind part.element = .element tag (own ++ part.current.toList)
  not_own : part.name ∉ own.map (·.name)
  faithful : ∀ values ∈ part.previous, Value.FaithfulAll objects values

/-- What bringing a part in step leaves: its place, and every node but for what its element is. -/
structure Leaves (t t' : Tree) (part part' : AttributePart) : Prop where
  element_eq : part'.element = part.element
  name_eq : part'.name = part.name
  strings_eq : part'.strings = part.strings
  rewritten : Tree.Rewritten t t' part.element (t'.kind part.element)

theorem Leaves.refl (t : Tree) (part : AttributePart) : Leaves t t part part :=
  ⟨rfl, rfl, rfl, .refl t _⟩

theorem Leaves.trans {t t' t'' : Tree} {part part' part'' : AttributePart}
    (h : Leaves t t' part part') (h' : Leaves t' t'' part' part'') : Leaves t t'' part part'' where
  element_eq := h'.element_eq.trans h.element_eq
  name_eq := h'.name_eq.trans h.name_eq
  strings_eq := h'.strings_eq.trans h.strings_eq
  rewritten n := by
    have hlast := h'.rewritten n
    rw [h.element_eq] at hlast
    rw [hlast]
    split
    · rw [h.rewritten part.element, if_pos rfl]
    · rename_i hn
      rw [h.rewritten n, if_neg hn]

/-- Values that are not skipped are remembered, and the attribute is made anew from them. -/
theorem setValues_renews {attributes : List Attribute} (hu : part.unchanged values = false)
    (hk : t.kind part.element = .element tag attributes) :
    (part.setValues t values).1 = { part with previous := some values } ∧
      Tree.Rewritten t (part.setValues t values).2.1 part.element (.element tag
        (Attribute.renewed part.name (shownBy part.name part.strings values) attributes)) := by
  have habsent := Tree.rewritten_removeAttribute hk part.name
  have hshown := Tree.rewritten_setAttribute hk ⟨part.name, (text part.strings values).1⟩
  rw [setValues, hu, if_neg Bool.false_ne_true, shownBy]
  split
  · exact ⟨rfl, habsent⟩
  · exact ⟨rfl, hshown⟩

/-- Values that are skipped give what is shown already. -/
theorem current_of_unchanged (hu : part.unchanged values = true)
    (hp : ∀ previous ∈ part.previous, Value.FaithfulAll objects previous)
    (hv : Value.FaithfulAll objects values) :
    part.current = shownBy part.name part.strings values := by
  rw [unchanged] at hu
  split at hu
  · rename_i previous hprev
    rw [current, hprev, Option.bind_some, shownBy_of_same hu (hp _ hprev) hv]
  · cases hu

/-- Whether the values are skipped or not, the element shows afterwards what they give. -/
theorem InStep.setValues (h : InStep objects t part tag own) (hv : Value.FaithfulAll objects values) :
    InStep objects (part.setValues t values).2.1 (part.setValues t values).1 tag own ∧
      (part.setValues t values).1.current = shownBy part.name part.strings values ∧
      Leaves t (part.setValues t values).2.1 part (part.setValues t values).1 := by
  cases hu : part.unchanged values with
  | true =>
    rw [AttributePart.setValues, if_pos hu]
    exact ⟨h, current_of_unchanged hu h.faithful hv, .refl t part⟩
  | false =>
    obtain ⟨hpart, hrewritten⟩ := setValues_renews hu h.kind_eq
    rw [Attribute.renewed_append (fun _ => name_of_current) (fun _ => name_of_shownBy) h.not_own]
      at hrewritten
    have hkind := hrewritten.kind_eq
    rw [← hkind] at hrewritten
    rw [hpart]
    exact ⟨⟨hkind, h.not_own, fun vs hvs => Option.some.inj hvs ▸ hv⟩, rfl,
      ⟨rfl, rfl, rfl, hrewritten⟩⟩

/-- A part that is brought in step with one list of values after another. -/
def run (part : AttributePart) (t : Tree) (calls : List (List Value)) : AttributePart × Tree :=
  calls.foldl (fun s values => ((s.1.setValues s.2 values).1, (s.1.setValues s.2 values).2.1))
    (part, t)

theorem run_concat (part : AttributePart) (t : Tree) (calls : List (List Value))
    (last : List Value) :
    part.run t (calls ++ [last]) =
      (((part.run t calls).1.setValues (part.run t calls).2 last).1,
        ((part.run t calls).1.setValues (part.run t calls).2 last).2.1) := by
  rw [run, List.foldl_append]
  rfl

theorem InStep.run (h : InStep objects t part tag own) {calls : List (List Value)}
    (hv : ∀ values ∈ calls, Value.FaithfulAll objects values) :
    InStep objects (part.run t calls).2 (part.run t calls).1 tag own ∧
      Leaves t (part.run t calls).2 part (part.run t calls).1 := by
  induction calls generalizing t part with
  | nil => exact ⟨h, .refl t part⟩
  | cons first calls ih =>
    obtain ⟨hfirst, -, hleaves⟩ := h.setValues (hv first (List.mem_cons_self ..))
    obtain ⟨hrun, hafter⟩ := ih hfirst fun values hm => hv values (List.mem_cons_of_mem _ hm)
    exact ⟨hrun, hleaves.trans hafter⟩

/-- On an element that does not have the attribute, however often a part is given values and
whichever of them it skips: the element has its own attributes as they were and in their order, and
behind them the attribute with the text that the last values spell, unless one of them is absent.
Nothing else changes in the tree. -/
theorem run_shows_last {calls : List (List Value)} {last : List Value}
    (hkind : t.kind part.element = .element tag own) (hown : part.name ∉ own.map (·.name))
    (hcurrent : part.current = none)
    (hprevious : ∀ values ∈ part.previous, Value.FaithfulAll objects values)
    (hcalls : ∀ values ∈ calls ++ [last],
      values.length = part.strings.size ∧ Value.FaithfulAll objects values) :
    Tree.Rewritten t (part.run t (calls ++ [last])).2 part.element (.element tag (own ++
      if last.any Value.isAbsent then [] else [⟨part.name, spelled part.strings last⟩])) := by
  have hstart : InStep objects t part tag own := by
    refine ⟨?_, hown, hprevious⟩
    rw [hkind, hcurrent, Option.toList_none, List.append_nil]
  obtain ⟨hrun, hleaves⟩ :=
    hstart.run fun values hm => (hcalls values (List.mem_append_left _ hm)).2
  have hlast := hcalls last (by simp)
  obtain ⟨hstep, hshown, hafter⟩ := hrun.setValues hlast.2
  have hall := hleaves.trans hafter
  have hkinds := hstep.kind_eq
  rw [hshown, hall.element_eq, hleaves.name_eq, hleaves.strings_eq, toList_shownBy hlast.1] at hkinds
  rw [run_concat, ← hkinds]
  exact hall.rewritten

/-- A title that is written, taken away and written again, with a skipped call in between. -/
theorem run_shows_last_title :
    let part : AttributePart := ⟨⟨0⟩, "title", .interpolated ["now ", "!"], none⟩
    let t : Tree := { nodes := #[{ kind := .element "p" [⟨"class", "x"⟩] }], size := 1 }
    let clock : Value := .display ⟨0, "12:30"⟩
    part.current = none ∧
      Tree.Rewritten t (part.run t ([[clock], [.absent], [.absent]] ++ [[clock]])).2 ⟨0⟩
        (.element "p" [⟨"class", "x"⟩, ⟨"title", "now 12:30!"⟩]) := by
  intro part t clock
  let objects : Objects :=
    ⟨fun _ => default, fun _ => ⟨{}, ⟨0⟩⟩, fun _ => "12:30", fun _ => leaves_empty⟩
  have hcalls : ∀ values ∈ [[clock], [.absent], [.absent]] ++ [[clock]],
      values.length = part.strings.size ∧ Value.FaithfulAll objects values := by
    simp only [List.cons_append, List.nil_append, List.forall_mem_cons]
    exact ⟨⟨rfl, rfl, trivial⟩, ⟨rfl, trivial, trivial⟩, ⟨rfl, trivial, trivial⟩,
      ⟨rfl, rfl, trivial⟩, by simp⟩
  have hkind : t.kind part.element = .element "p" [⟨"class", "x"⟩] := rfl
  exact ⟨rfl, run_shows_last hkind (by decide) rfl (fun values h => by cases h) hcalls⟩

end AttributePart

end LiveMarkup
