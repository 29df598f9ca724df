import LiveMarkup.Proofs.Part.Patching

set_option autoImplicit false

/-!
Two runs that begin alike. How a value is applied depends on the parts, the tree, the settled values
and what the cache answers, but not on what else there is; where the first run is not cut off, it
does not depend on how deep the recursion may go either. What two runs may differ in is a parameter.
-/

namespace LiveMarkup

/-- Not cut off. -/
def Applied.Ended {α : Type} (a : Applied α) : Prop := a.error ≠ some .endlessValue

theorem Applied.Ended.of_none {α : Type} {a : Applied α} (he : a.error = none) : a.Ended := by
  rw [Applied.Ended, he]
  nofun

/-- What the cache is asked for a template that is shown while something else is held. -/
def Setting.ask (s : Setting) (w : World) (held : Holders) (strings : TemplateStrings)
    (kind : TemplateKind) : TemplateCache.Answer :=
  w.cache.getOrCompile ((s.holders ++ held).holdsStrings s.deferreds) strings kind

/-- What is changed in the tree, and reported. -/
def World.edited (w : World) (tree : Tree) (events : List Event) : World :=
  { w with tree, events := w.events ++ events }

def World.answered (w : World) (a : TemplateCache.Answer) : World :=
  { w with cache := a.cache, events := w.events ++ a.events }

theorem World.withTree_eq (w : World) (tree : Tree) : w.withTree tree = w.edited tree [] := by
  rw [World.edited, List.append_nil]
  rfl

theorem World.report_eq (w : World) (e : Event) : w.report e = w.edited w.tree [e] := rfl

/-- What two runs may differ in: their settings and their worlds, the values being of some sort. The
trees and the settled values are the same, and the caches answer alike. -/
structure Likeness where
  settings : Setting → Setting → Prop
  worlds : World → World → Prop
  values : Value → Prop
  deferreds_eq : ∀ {s s'}, settings s s' → s'.deferreds = s.deferreds
  strict_eq : ∀ {s s'}, settings s s' → s'.strictValueCount = s.strictValueCount
  holding : ∀ {s s'}, settings s s' → ∀ vs, settings (s.holding vs) (s'.holding vs)
  tree_eq : ∀ {w w'}, worlds w w' → w'.tree = w.tree
  edited : ∀ {w w'}, worlds w w' → ∀ tree events,
    worlds (w.edited tree events) (w'.edited tree events)
  asked : ∀ {s s' w w'}, settings s s' → worlds w w' → ∀ {strings vs kind},
    values (.template strings vs kind) → ∀ held,
    (s'.ask w' held strings kind).outcome = (s.ask w held strings kind).outcome ∧
      worlds (w.answered (s.ask w held strings kind)) (w'.answered (s'.ask w' held strings kind))
  null : values .null
  template : ∀ {strings vs kind}, values (.template strings vs kind) → ∀ v ∈ vs, values v
  iterable : ∀ {vs}, values (.iterable vs) → ∀ v ∈ vs, values v
  shown : ∀ {d v}, values (.placeholder d v) → values v
  outcome : ∀ {s s'}, settings s s' → ∀ {d v}, s.deferreds.poll d = .fulfilled v → values v

namespace Likeness

variable {L : Likeness} {α β : Type} {patch patch' : Patch} {s s' : Setting} {w w' : World}

theorem withTree (hw : L.worlds w w') (tree : Tree) : L.worlds (w.withTree tree) (w'.withTree tree) := by
  rw [World.withTree_eq, World.withTree_eq]
  exact L.edited hw tree []

theorem report (hw : L.worlds w w') (e : Event) : L.worlds (w.report e) (w'.report e) := by
  rw [World.report_eq, World.report_eq, L.tree_eq hw]
  exact L.edited hw w.tree [e]

/-- The same has come of both runs. -/
structure Alike (L : Likeness) (a a' : Applied α) : Prop where
  part_eq : a'.part = a.part
  error_eq : a'.error = a.error
  worlds : L.worlds a.world a'.world

theorem Alike.map {a a' : Applied α} (h : L.Alike a a') (g : α → β) :
    L.Alike (a.map g) (a'.map g) :=
  ⟨congrArg g h.part_eq, h.error_eq, h.worlds⟩

theorem Alike.of_worlds (hw : L.worlds w w') (x : α) (e : Option RenderError) :
    L.Alike { part := x, world := w, error := e } { part := x, world := w', error := e } :=
  ⟨rfl, rfl, hw⟩

/-- The second way to apply values does what the first does, where the first is not cut off. -/
def Follows (L : Likeness) (patch patch' : Patch) : Prop :=
  ∀ ⦃s s' : Setting⦄ ⦃w w' : World⦄ (part : NodePart) ⦃value : Value⦄, L.settings s s' →
    L.worlds w w' → L.values value → (patch s w part value).Ended →
    L.Alike (patch s w part value) (patch' s' w' part value)

theorem setText (hw : L.worlds w w') (part : NodePart) (shown : Primitive) :
    L.Alike (part.setText w shown) (part.setText w' shown) := by
  unfold NodePart.setText
  rw [L.tree_eq hw]
  refine ⟨rfl, rfl, ?_⟩
  simp only
  split
  · exact L.report (L.withTree hw _) _
  · exact L.withTree hw _

theorem setPrimitive (hw : L.worlds w w') (part : NodePart) (p : Primitive) :
    L.Alike (part.setPrimitive w p) (part.setPrimitive w' p) := by
  unfold NodePart.setPrimitive
  split
  · exact .of_worlds (L.report hw _) _ _
  · exact setText hw part p

theorem setNode (hw : L.worlds w w') (part : NodePart) (fragment : Fragment) :
    L.Alike (part.setNode w fragment) (part.setNode w' fragment) := by
  unfold NodePart.setNode
  simp only [L.tree_eq hw]
  cases part.state with
  | node shown =>
    simp only
    split
    · exact .of_worlds hw _ _
    · exact .of_worlds (L.withTree hw _) _ _
  | _ => exact .of_worlds (L.withTree hw _) _ _

theorem ended_finish {part : NodePart} {a : Applied (List NodePart × List NodePart)} :
    (Patch.finish part a).Ended ↔ a.Ended := by
  rw [Applied.Ended, Patch.error_finish, Applied.Ended]

namespace Follows

theorem parts (h : L.Follows patch patch') (hs : L.settings s s') (hw : L.worlds w w')
    {ps done : List Part} {cs : List TemplatePart} {slots : Slots} (hslots : slots.All L.values)
    (hend : (Patch.parts patch s w done ps cs slots).Ended) :
    L.Alike (Patch.parts patch s w done ps cs slots)
      (Patch.parts patch' s' w' done ps cs slots) := by
  induction ps generalizing w w' done cs slots with
  | nil =>
    simp only [Patch.parts]
    exact .of_worlds hw _ _
  | cons p ps ih =>
    cases cs with
    | nil =>
      simp only [Patch.parts]
      exact .of_worlds hw _ _
    | cons c cs =>
      cases p with
      | «attribute» part =>
        have htaken := (hslots.takeMany L.null c.valueIndex part.strings.size).2
        simp only [Patch.parts, L.tree_eq hw] at hend ⊢
        exact ih (L.edited hw _ _) htaken hend
      | node part =>
        obtain ⟨hvalue, htaken⟩ := hslots.take L.null c.valueIndex
        have ha := h part (L.holding hs ((slots.take c.valueIndex).2.left ++ Part.heldByAll done ++
          Part.heldByAll ps)) hw hvalue
        simp only [Patch.parts] at hend ⊢
        generalize patch (s.holding _) w part _ = a at ha hend ⊢
        generalize patch' (s'.holding _) w' part _ = a' at ha ⊢
        cases he : a.error with
        | some e =>
          simp only [he] at hend
          have ha := ha hend
          simp only [ha.error_eq, he]
          exact ha.map _
        | none =>
          simp only [he] at hend
          have ha := ha (.of_none he)
          simp only [ha.error_eq, he, ha.part_eq]
          exact ih ha.worlds htaken hend

theorem update (h : L.Follows patch patch') (hs : L.settings s s') (hw : L.worlds w w')
    (t : Template) (ps : List Part) {values : List Value} (hvalues : ∀ v ∈ values, L.values v)
    (hend : (Patch.update patch s w t ps values).Ended) :
    L.Alike (Patch.update patch s w t ps values) (Patch.update patch' s' w' t ps values) := by
  unfold Patch.update at hend ⊢
  simp only [L.strict_eq hs] at hend ⊢
  split
  · exact .of_worlds hw _ _
  · rename_i hcount
    rw [if_neg hcount] at hend
    refine h.parts hs ?_ (Slots.all_map_some hvalues) hend
    split
    · exact hw
    · exact L.report hw _

theorem fresh (h : L.Follows patch patch') (hs : L.settings s s') (hw : L.worlds w w')
    (part : NodePart) (shared : SharedTemplate) {values : List Value}
    (hvalues : ∀ v ∈ values, L.values v)
    (hend : (Patch.fresh patch s w part shared values).Ended) :
    L.Alike (Patch.fresh patch s w part shared values)
      (Patch.fresh patch' s' w' part shared values) := by
  unfold Patch.fresh at hend ⊢
  rw [L.tree_eq hw]
  split
  · exact .of_worlds (L.withTree hw _) _ _
  · rename_i hcopy
    simp only [hcopy] at hend
    exact (h.update hs (L.report (L.withTree hw _) _) _ _ hvalues hend).map _

theorem answered (h : L.Follows patch patch') (hs : L.settings s s') (hw : L.worlds w w')
    (part : NodePart) {values : List Value} (hvalues : ∀ v ∈ values, L.values v)
    (outcome : Except (List Markup.SyntaxError) SharedTemplate)
    (hend : (Patch.answered patch s w part values outcome).Ended) :
    L.Alike (Patch.answered patch s w part values outcome)
      (Patch.answered patch' s' w' part values outcome) := by
  match outcome with
  | .error errors => exact .of_worlds hw _ _
  | .ok shared =>
    unfold Patch.answered at hend ⊢
    cases hstate : part.state with
    | nested shown ps =>
      simp only [hstate] at hend ⊢
      split
      · rename_i hid
        rw [if_pos hid] at hend
        exact (h.update hs (L.report hw _) _ _ hvalues hend).map _
      · rename_i hid
        rw [if_neg hid] at hend
        exact h.fresh hs hw part shared hvalues hend
    | _ =>
      simp only [hstate] at hend ⊢
      exact h.fresh hs hw part shared hvalues hend

theorem template (h : L.Follows patch patch') (hs : L.settings s s') (hw : L.worlds w w')
    (part : NodePart) {r : TemplateResult} (hr : L.values (.template r.strings r.values r.kind))
    (hend : (Patch.template patch s w part r).Ended) :
    L.Alike (Patch.template patch s w part r) (Patch.template patch' s' w' part r) := by
  have heq (patch : Patch) (s : Setting) (w : World) : Patch.template patch s w part r =
      Patch.answered patch s
        (w.answered (s.ask w ⟨[r.strings.identity], r.values ++ part.held⟩ r.strings r.kind)) part
        r.values (s.ask w ⟨[r.strings.identity], r.values ++ part.held⟩ r.strings r.kind).outcome := rfl
  obtain ⟨houtcome, hanswered⟩ := L.asked hs hw hr ⟨[r.strings.identity], r.values ++ part.held⟩
  rw [heq] at hend
  rw [heq, heq, houtcome]
  exact h.answered hs hanswered part (L.template hr) _ hend

theorem itemsFrom {holding holding' : Setting} {start stop : NodeId} {done left : List NodePart}
    {part : NodePart} {value : Value} {values : List Value} (h : L.Follows patch patch')
    (hholding : L.settings holding holding') (hw : L.worlds w w') (hvalue : L.values value)
    (hrest : ∀ {w w' : World} {done : List NodePart}, L.worlds w w' →
      (Patch.items patch s start stop w done left values).Ended →
      L.Alike (Patch.items patch s start stop w done left values)
        (Patch.items patch' s' start stop w' done left values))
    (hend : (Patch.itemsFrom patch s holding start stop w done part left value values).Ended) :
    L.Alike (Patch.itemsFrom patch s holding start stop w done part left value values)
      (Patch.itemsFrom patch' s' holding' start stop w' done part left value values) := by
  have ha := h part hholding hw hvalue
  simp only [Patch.itemsFrom] at hend ⊢
  generalize patch holding w part value = a at ha hend ⊢
  generalize patch' holding' w' part value = a' at ha ⊢
  cases he : a.error with
  | some e =>
    simp only [he] at hend
    have ha := ha hend
    simp only [ha.error_eq, he]
    exact ha.map _
  | none =>
    simp only [he] at hend
    have ha := ha (.of_none he)
    simp only [ha.error_eq, he, ha.part_eq]
    exact hrest ha.worlds hend

theorem items (h : L.Follows patch patch') (hs : L.settings s s') (hw : L.worlds w w')
    {start : NodeId} (stop : NodeId) {done left : List NodePart} {values : List Value}
    (hvalues : ∀ v ∈ values, L.values v)
    (hend : (Patch.items patch s start stop w done left values).Ended) :
    L.Alike (Patch.items patch s start stop w done left values)
      (Patch.items patch' s' start stop w' done left values) := by
  induction values generalizing w w' start done left with
  | nil =>
    simp only [Patch.items]
    exact .of_worlds hw _ _
  | cons value values ih =>
    obtain ⟨hvalue, hvalues⟩ := List.forall_mem_cons.1 hvalues
    cases left with
    | cons part left =>
      exact h.itemsFrom (L.holding hs _) hw hvalue (fun hw hend => ih hw hvalues hend) hend
    | nil =>
      cases done with
      | nil => exact h.itemsFrom (L.holding hs _) hw hvalue (fun hw hend => ih hw hvalues hend) hend
      | cons last before =>
        have htree := L.tree_eq hw
        have hin := L.withTree hw
          ((w.tree.create (.text "")).1.insertBefore stop (w.tree.create (.text "")).2).1
        rw [Patch.items] at hend ⊢
        rw [Patch.items, htree]
        exact h.itemsFrom (L.holding hs _) hin hvalue (fun hw hend => ih hw hvalues hend) hend

theorem finish {a a' : Applied (List NodePart × List NodePart)} (h : L.Alike a a')
    (part : NodePart) : L.Alike (Patch.finish part a) (Patch.finish part a') := by
  obtain ⟨⟨done, left⟩, w, error⟩ := a
  obtain ⟨⟨done', left'⟩, w', error'⟩ := a'
  obtain ⟨hpart, herror, hw⟩ := h
  obtain ⟨rfl, rfl⟩ := Prod.mk.inj hpart
  obtain rfl : error' = error := herror
  have htree : w'.tree = w.tree := L.tree_eq hw
  match error', done' with
  | some e, _ => exact ⟨rfl, rfl, hw⟩
  | none, [] =>
    have hcleared := L.withTree hw (part.clear w.tree)
    simp only [Patch.finish, htree]
    exact ⟨rfl, rfl, hcleared⟩
  | none, last :: others =>
    cases left' with
    | nil => exact ⟨rfl, rfl, hw⟩
    | cons p ps =>
      have hdropped := L.report hw (.droppedItems (p :: ps).length)
      have hcut := L.withTree hdropped
        ((w.report (.droppedItems (p :: ps).length)).tree.removeRange last.stop part.stop).1
      simp only [Patch.finish, List.isEmpty_cons, L.tree_eq hdropped]
      exact ⟨rfl, rfl, hcut⟩

theorem iterable (h : L.Follows patch patch') (hs : L.settings s s') (hw : L.worlds w w')
    (part : NodePart) {values : List Value} (hvalues : ∀ v ∈ values, L.values v)
    (hend : (Patch.iterable patch s w part values).Ended) :
    L.Alike (Patch.iterable patch s w part values) (Patch.iterable patch' s' w' part values) := by
  by_cases hstate : ∃ ps, part.state = .items ps
  · obtain ⟨ps, hstate⟩ := hstate
    rw [Patch.iterable_items _ _ _ hstate] at hend ⊢
    rw [Patch.iterable_items _ _ _ hstate]
    exact finish (h.items hs hw _ hvalues (ended_finish.1 hend)) part
  · have hother (ps : List NodePart) : part.state ≠ .items ps := fun hp => hstate ⟨ps, hp⟩
    rw [Patch.iterable_other _ _ _ hother] at hend ⊢
    rw [Patch.iterable_other _ _ _ hother, L.tree_eq hw]
    exact finish (h.items hs (L.withTree hw _) _ hvalues (ended_finish.1 hend)) part

theorem placeholder (h : L.Follows patch patch') (hs : L.settings s s') (hw : L.worlds w w')
    (part : NodePart) {d : DeferredId} {shown : Value} (hshown : L.values shown)
    (hend : (Patch.placeholder patch s w part d shown).Ended) :
    L.Alike (Patch.placeholder patch s w part d shown)
      (Patch.placeholder patch' s' w' part d shown) := by
  by_cases hwaits : part.state = .pending d
  · rw [Patch.placeholder_waits hwaits, Patch.placeholder_waits hwaits]
    exact .of_worlds (L.report hw _) _ _
  rw [Patch.placeholder_new hwaits] at hend ⊢
  rw [Patch.placeholder_new hwaits, L.deferreds_eq hs]
  have hstandIn (hend : (Patch.standIn patch s w part d shown).Ended) :
      L.Alike (Patch.standIn patch s w part d shown) (Patch.standIn patch' s' w' part d shown) := by
    have ha := h part (L.holding hs [.pending d]) hw hshown
    simp only [Patch.standIn] at hend ⊢
    generalize patch (s.holding [.pending d]) w part shown = a at ha hend ⊢
    generalize patch' (s'.holding [.pending d]) w' part shown = a' at ha ⊢
    cases he : a.error with
    | some e =>
      simp only [he] at hend
      have ha := ha hend
      simp only [ha.error_eq, he]
      exact ha
    | none =>
      have ha := ha (.of_none he)
      simp only [ha.error_eq, he]
      exact ha.map _
  cases hpoll : s.deferreds.poll d with
  | fulfilled value =>
    simp only [hpoll] at hend
    exact h part (L.holding hs [.pending d, shown]) hw (L.outcome hs hpoll) hend
  | waiting | rejected =>
    simp only [hpoll] at hend
    exact hstandIn hend

theorem step (h : L.Follows patch patch') : L.Follows (Patch.step patch) (Patch.step patch') := by
  intro s s' w w' part value hs hw hvalue hend
  match value with
  | .primitive p => exact setPrimitive hw part p
  | .template strings values kind => exact h.template hs hw part (r := ⟨strings, values, kind⟩) hvalue hend
  | .iterable values => exact h.iterable hs hw part (L.iterable hvalue) hend
  | .node fragment => exact setNode hw part fragment
  | .pending d => exact .of_worlds hw _ _
  | .placeholder d shown => exact h.placeholder hs hw part (L.shown hvalue) hend
  | .absent => exact setPrimitive hw part .null
  | .display object => exact setText hw part (.str object.text)

end Follows

/-- Where a run is not cut off, one that may go deeper does the same. -/
theorem follows_within (L : Likeness) {depth depth' : Nat} (hle : depth ≤ depth') :
    L.Follows (Patch.within depth) (Patch.within depth') := by
  induction depth generalizing depth' with
  | zero =>
    intro s s' w w' part value _ _ _ hend
    exact absurd rfl hend
  | succ depth ih =>
    cases depth' with
    | zero => omega
    | succ depth' =>
      have h : L.Follows (Patch.within depth) (Patch.within depth') := ih (by omega)
      exact h.step

end Likeness

end LiveMarkup
