import LiveMarkup.Part.Attribute
import LiveMarkup.Proofs.Template.Sound
import LiveMarkup.Proofs.Tree.View
import LiveMarkup.Proofs.Value.Faithful

set_option autoImplicit false

/-!
Attribute parts. An element carries its own attributes and those that its parts show; bringing one
part in step replaces what that part shows and nothing else. The attributes of an element that is
new come in the order of its parts.
-/

namespace LiveMarkup

open LiveMarkup.Tree (Edits)

namespace AttributePart

/-- The attribute that values give: none if one of them is absent. -/
def shownBy (name : String) (strings : AttributeStrings) (values : List Value) : Option Attribute :=
  if values.any Value.isAbsent then none else some ⟨name, (text strings values).1⟩

/-- The attribute that a part shows. -/
def current (part : AttributePart) : Option Attribute :=
  part.previous.bind (shownBy part.name part.strings)

variable {objects : Objects}

theorem interleave_of_same {segments : List String} {values values' : List Value}
    (h : Value.sameAll values values' = true) (hv : Value.FaithfulAll objects values)
    (hw : Value.FaithfulAll objects values') :
    interleave segments values = interleave segments values' := by
  match values, values' with
  | [], [] => rfl
  | v :: vs, w :: ws =>
    rw [Value.sameAll, Bool.and_eq_true] at h
    match segments with
    | [] => rfl
    | [last] => rfl
    | segment :: next :: segments =>
      simp only [interleave, Value.attributeText_of_same h.1 hv.1 hw.1,
        interleave_of_same h.2 hv.2 hw.2]

theorem text_of_same {strings : AttributeStrings} {values values' : List Value}
    (h : Value.sameAll values values' = true) (hv : Value.FaithfulAll objects values)
    (hw : Value.FaithfulAll objects values') : text strings values = text strings values' := by
  cases strings with
  | interpolated segments => exact interleave_of_same h hv hw
  | whole =>
    match values, values' with
    | [], [] => rfl
    | v :: vs, w :: ws =>
      rw [Value.sameAll, Bool.and_eq_true] at h
      have ht := Value.attributeText_of_same h.1 hv.1 hw.1
      cases v <;> cases w <;> first | exact ht | cases h.1

theorem any_isAbsent_of_same {values values' : List Value}
    (h : Value.sameAll values values' = true) :
    values.any Value.isAbsent = values'.any Value.isAbsent := by
  match values, values' with
  | [], [] => rfl
  | v :: vs, w :: ws =>
    rw [Value.sameAll, Bool.and_eq_true] at h
    rw [List.any_cons, List.any_cons, Value.isAbsent_of_same h.1, any_isAbsent_of_same h.2]

theorem shownBy_of_same {name : String} {strings : AttributeStrings} {values values' : List Value}
    (h : Value.sameAll values values' = true) (hv : Value.FaithfulAll objects values)
    (hw : Value.FaithfulAll objects values') :
    shownBy name strings values = shownBy name strings values' := by
  rw [shownBy, shownBy, any_isAbsent_of_same h, text_of_same h hv hw]

end AttributePart

theorem overwrite_perm (name value : String) (attributes : List Attribute) :
    (Tree.overwrite name value attributes).Perm
      (⟨name, value⟩ :: attributes.eraseP (·.name == name)) := by
  induction attributes with
  | nil => exact .refl _
  | cons a as ih =>
    by_cases ha : a.name == name
    · rw [Tree.overwrite, if_pos ha, List.eraseP_cons, ha, cond_true]
    · rw [Tree.overwrite, if_neg ha, List.eraseP_cons, Bool.eq_false_iff.2 ha, cond_false]
      exact (ih.cons a).trans (.swap _ _ _)

theorem overwrite_of_not_mem {name : String} (value : String) {attributes : List Attribute}
    (h : name ∉ attributes.map (·.name)) :
    Tree.overwrite name value attributes = attributes ++ [⟨name, value⟩] := by
  induction attributes with
  | nil => rfl
  | cons a as ih =>
    rw [List.map_cons, List.mem_cons, not_or] at h
    rw [Tree.overwrite, if_neg (by simpa using Ne.symm h.1), ih h.2, List.cons_append]

/-- The attributes of an element after the one of a name is taken away or written. -/
def Attribute.renewed (name : String) (new : Option Attribute) (own : List Attribute) :
    List Attribute :=
  match new with
  | none => own.eraseP (·.name == name)
  | some a => Tree.overwrite name a.value own

theorem renewed_perm {name : String} {own front back : List Attribute} {cur new : Option Attribute}
    (hcur : ∀ a ∈ cur, a.name = name) (hnew : ∀ a ∈ new, a.name = name)
    (hn : name ∉ (front ++ back).map (·.name)) (hnd : ((front ++ back).map (·.name)).Nodup)
    (hp : own.Perm (front ++ cur.toList ++ back)) :
    (Attribute.renewed name new own).Perm (front ++ new.toList ++ back) := by
  have hkept {l : List Attribute} (hl : name ∉ l.map (·.name)) :
      l.filter (fun a => !(a.name == name)) = l := by
    rw [List.filter_eq_self]
    intro a ha
    have hne : a.name ≠ name := fun he => hl (he ▸ List.mem_map_of_mem ha)
    simpa using hne
  rw [List.map_append, List.mem_append, not_or] at hn
  have hdropped : (cur.toList).filter (fun a => !(a.name == name)) = [] := by
    rw [List.filter_eq_nil_iff]
    intro a ha
    simp [hcur a (Option.mem_toList.1 ha)]
  have hnames : (own.map (·.name)).Nodup := by
    rw [(hp.map _).nodup_iff]
    cases cur with
    | none => simpa using hnd
    | some a =>
      have hmid : (front ++ (some a).toList ++ back).Perm (a :: (front ++ back)) := by
        simp
      rw [(hmid.map _).nodup_iff, List.map_cons, hcur a rfl, List.nodup_cons, List.map_append,
        List.mem_append, not_or]
      exact ⟨hn, by simpa using hnd⟩
  have herased : (own.eraseP (·.name == name)).Perm (front ++ back) := by
    have hf := hp.filter (fun a => !(a.name == name))
    rw [eraseP_eq_filter hnames]
    simpa [List.filter_append, hkept hn.1, hkept hn.2, hdropped] using hf
  cases new with
  | none => simpa [Attribute.renewed] using herased
  | some a =>
    have hself : (⟨name, a.value⟩ : Attribute) = a := by rw [← hnew a rfl]
    have hmid : (a :: (front ++ back)).Perm (front ++ (some a).toList ++ back) := by
      simpa using List.perm_middle.symm
    refine (overwrite_perm name a.value own).trans (List.Perm.trans ?_ hmid)
    rw [hself]
    exact herased.cons a

/-- An attribute that nothing comes after is written last. -/
theorem renewed_eq {name : String} {own : List Attribute} {new : Option Attribute}
    (hnew : ∀ a ∈ new, a.name = name) (hn : name ∉ own.map (·.name)) :
    Attribute.renewed name new own = own ++ new.toList := by
  cases new with
  | none =>
    rw [Attribute.renewed, List.eraseP_of_forall_not, Option.toList_none, List.append_nil]
    intro a ha
    have hne : a.name ≠ name := fun he => hn (he ▸ List.mem_map_of_mem ha)
    simpa using hne
  | some a =>
    rw [Attribute.renewed, overwrite_of_not_mem _ hn, Option.toList_some, ← hnew a rfl]

namespace AttributePart

variable {objects : Objects} {t : Tree} {part : AttributePart} {tag : String}
  {front back : List Attribute} {values : List Value} {exact : Bool}

theorem name_of_shownBy {name : String} {strings : AttributeStrings} {a : Attribute}
    (h : a ∈ shownBy name strings values) : a.name = name := by
  rw [shownBy] at h
  split at h
  · cases h
  · obtain rfl := Option.some.inj h
    rfl

theorem name_of_current {a : Attribute} (h : a ∈ part.current) : a.name = part.name := by
  obtain ⟨values, -, hs⟩ := Option.bind_eq_some_iff.1 h
  exact name_of_shownBy hs

/-- What bringing an attribute part in step does. -/
structure Renews (objects : Objects) (t : Tree) (part part' : AttributePart) (t' : Tree)
    (values : List Value) (kind : NodeKind) : Prop where
  edits : Edits t t' part.element kind
  element_eq : part'.element = part.element
  name_eq : part'.name = part.name
  strings_eq : part'.strings = part.strings
  current_eq : part'.current = shownBy part.name part.strings values
  faithful : ∀ vs, part'.previous = some vs → Value.FaithfulAll objects vs

theorem setValues_edits (ha : t.Accounted) (hl : t.contains part.element = true)
    {own : List Attribute} (hk : t.kind part.element = .element tag own)
    (hu : part.unchanged values = false) :
    Edits t (part.setValues t values).2.1 part.element
        (.element tag (Attribute.renewed part.name
          (shownBy part.name part.strings values) own)) ∧
      (part.setValues t values).1 = { part with previous := some values } := by
  simp only [setValues, hu, Bool.false_eq_true, if_false]
  by_cases habs : values.any Value.isAbsent = true
  · simp only [habs, if_true, shownBy, Attribute.renewed, Tree.removeAttribute, hk, and_true]
    split
    · exact ha.edits_setKind hl _
    · rename_i hnone
      rw [List.eraseP_of_forall_not, ← hk]
      · exact ha.edits_refl _
      · intro a hm
        simpa using List.find?_eq_none.1 hnone a hm
  · simp only [habs, if_false, shownBy, Attribute.renewed, Tree.setAttribute, hk, and_true,
      Bool.false_eq_true]
    exact ha.edits_setKind hl _

theorem renews_setValues (ha : t.Accounted) (hl : t.contains part.element = true)
    (hk : (t.kind part.element).view exact =
      (NodeKind.element tag (front ++ part.current.toList ++ back)).view exact)
    (hn : part.name ∉ (front ++ back).map (·.name)) (hnd : ((front ++ back).map (·.name)).Nodup)
    (he : exact = true → part.previous = none ∧ back = [])
    (hp : ∀ vs, part.previous = some vs → Value.FaithfulAll objects vs)
    (hv : Value.FaithfulAll objects values) :
    ∃ kind, Renews objects t part (part.setValues t values).1 (part.setValues t values).2.1
        values kind ∧
      kind.view exact = (NodeKind.element tag (front ++
        (shownBy part.name part.strings values).toList ++ back)).view exact := by
  by_cases hu : part.unchanged values = true
  · -- Nothing is touched: what was shown is what is to be shown.
    have hset : part.setValues t values = (part, t, [.attributeUnchanged part.name]) := by
      simp only [setValues, hu, if_true]
    obtain ⟨previous, hprev, hsame⟩ : ∃ previous, part.previous = some previous ∧
        Value.sameAll previous values = true := by
      unfold unchanged at hu
      split at hu
      · exact ⟨_, ‹_›, hu⟩
      · cases hu
    have hcurrent : part.current = shownBy part.name part.strings values := by
      rw [current, hprev, Option.bind_some, shownBy_of_same hsame (hp _ hprev) hv]
    rw [hset]
    exact ⟨_, ⟨ha.edits_refl _, rfl, rfl, rfl, hcurrent, hp⟩, by rw [hk, hcurrent]⟩
  · obtain ⟨own, hkind, hperm, hexact⟩ := NodeKind.view_element.1 hk
    obtain ⟨hedits, hpart⟩ :=
      setValues_edits ha hl hkind (Bool.eq_false_iff.2 hu)
    refine ⟨_, ⟨hedits, by rw [hpart], by rw [hpart], by rw [hpart], by rw [hpart]; rfl, ?_⟩, ?_⟩
    · intro vs hvs
      rw [hpart] at hvs
      exact Option.some.inj hvs ▸ hv
    · refine NodeKind.view_element.2 ⟨_, rfl, ?_, fun hex => ?_⟩
      · exact renewed_perm (fun a => name_of_current) (fun a => name_of_shownBy) hn hnd hperm
      · obtain ⟨hnone, rfl⟩ := he hex
        have hcur : part.current = none := by rw [current, hnone, Option.bind_none]
        have hown : own = front := by simpa [hcur] using hexact hex
        rw [List.append_nil] at hn
        rw [hown, renewed_eq (fun a => name_of_shownBy) hn, List.append_nil]

end AttributePart

end LiveMarkup
