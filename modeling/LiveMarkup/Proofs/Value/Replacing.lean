import LiveMarkup.Proofs.Value.Faithful
import LiveMarkup.Proofs.Value.Foresight

set_option autoImplicit false

/-!
Values with the deferred ones replaced by what they come to. Between nodes the replaced value shows
now what the value itself will show; the values of attributes are read once, so there must be no
deferred ones among them.
-/

namespace LiveMarkup

namespace Slots

variable {α : Type}

/-- What is under an index, if it is still there. -/
def still? (slots : List (Option α)) (index : Nat) : Option α := slots[index]?.join

theorem still?_map_some (values : List α) (i : Nat) : still? (values.map some) i = values[i]? := by
  rw [still?, List.getElem?_map]
  cases values[i]? <;> rfl

theorem still?_set_none (slots : List (Option α)) (i j : Nat) :
    still? (slots.set i none) j = if i = j then none else still? slots j := by
  rw [still?, List.getElem?_set]
  split
  · split <;> rfl
  · rfl

theorem still?_takeManyFrom (absent : α) (slots : List (Option α)) (i n j : Nat) :
    still? (takeManyFrom absent slots i n).2 j =
      if i ≤ j ∧ j < i + n then none else still? slots j := by
  induction n generalizing slots i with
  | zero => rw [takeManyFrom, if_neg (by omega)]
  | succ n ih =>
    simp only [takeManyFrom, takeFrom]
    rw [ih, still?_set_none]
    split
    · rw [if_pos (by omega)]
    split
    · rw [if_pos (by omega)]
    · rw [if_neg (by omega)]

theorem takeManyFrom_congr (absent : α) {slots slots' : List (Option α)} {i n : Nat}
    (h : ∀ j, i ≤ j → j < i + n → still? slots j = still? slots' j) :
    (takeManyFrom absent slots i n).1 = (takeManyFrom absent slots' i n).1 := by
  induction n generalizing slots slots' i with
  | zero => rfl
  | succ n ih =>
    have hfirst : slots[i]?.join = slots'[i]?.join := h i (by omega) (by omega)
    simp only [takeManyFrom, takeFrom, hfirst]
    refine congrArg _ (ih fun j hj hlt => ?_)
    rw [still?_set_none, still?_set_none, h j (by omega) (by omega)]

end Slots

namespace Template

open Slots (still? still?_set_none still?_takeManyFrom takeManyFrom_congr)

/-- Parts show the same if the branches are the same, and for the values of attributes the values
too. -/
theorem shows_congr {parts : List TemplatePart} {slots slots' : List (Option Meaning)}
    (hbranches : ∀ i, (still? slots i).map Meaning.branches = (still? slots' i).map Meaning.branches)
    (hattributes : ∀ c ∈ parts, ∀ name strings, c.kind = .attribute name strings →
      ∀ i, c.valueIndex ≤ i → i < c.valueIndex + strings.size → still? slots i = still? slots' i) :
    shows parts slots = shows parts slots' := by
  induction parts generalizing slots slots' with
  | nil => rfl
  | cons c cs ih =>
    have hrest := fun d (hd : d ∈ cs) => hattributes d (List.mem_cons_of_mem _ hd)
    rw [shows, shows]
    cases hkind : c.kind with
    | node =>
      have hfirst : (Slots.takeFrom .ofNull slots c.valueIndex).1.branches =
          (Slots.takeFrom .ofNull slots' c.valueIndex).1.branches := by
        simp only [Slots.takeFrom]
        rw [← Option.getD_map Meaning.branches, ← Option.getD_map Meaning.branches]
        exact congrArg (Option.getD · _) (hbranches c.valueIndex)
      have hleft : shows cs (Slots.takeFrom .ofNull slots c.valueIndex).2 =
          shows cs (Slots.takeFrom .ofNull slots' c.valueIndex).2 := by
        refine ih (fun i => ?_) fun d hd name strings hk i hi hlt => ?_
        · simp only [Slots.takeFrom, still?_set_none]
          split
          · rfl
          · exact hbranches i
        · simp only [Slots.takeFrom, still?_set_none]
          split
          · rfl
          · exact hrest d hd name strings hk i hi hlt
      simp only [hfirst, hleft]
    | «attribute» name strings =>
      have htaken := takeManyFrom_congr Meaning.ofNull
        (hattributes c List.mem_cons_self name strings hkind)
      have hleft : shows cs (Slots.takeManyFrom .ofNull slots c.valueIndex strings.size).2 =
          shows cs (Slots.takeManyFrom .ofNull slots' c.valueIndex strings.size).2 := by
        refine ih (fun i => ?_) fun d hd other others hk i hi hlt => ?_
        · rw [still?_takeManyFrom, still?_takeManyFrom]
          split
          · rfl
          · exact hbranches i
        · rw [still?_takeManyFrom, still?_takeManyFrom]
          split
          · rfl
          · exact hrest d hd other others hk i hi hlt
      simp only [htaken, hleft]

/-- A template shows the same for other values with the same branches, if the values of its
attributes are the same. -/
theorem denote_congr {t : Template} {strict : Bool} {meanings meanings' : List Meaning}
    (hbranches : meanings.map Meaning.branches = meanings'.map Meaning.branches)
    (hattributes : ∀ c ∈ t.parts, ∀ name strings, c.kind = .attribute name strings →
      ∀ i, c.valueIndex ≤ i → i < c.valueIndex + strings.size → meanings[i]? = meanings'[i]?) :
    t.denote strict meanings = t.denote strict meanings' := by
  have hlength : meanings.length = meanings'.length := by
    simpa using congrArg List.length hbranches
  have hshows : shows t.parts (meanings.map some) = shows t.parts (meanings'.map some) := by
    refine shows_congr (fun i => ?_) fun c hc name strings hk i hi hlt => ?_
    · rw [Slots.still?_map_some, Slots.still?_map_some, ← List.getElem?_map, ← List.getElem?_map,
        hbranches]
    · rw [Slots.still?_map_some, Slots.still?_map_some]
      exact hattributes c hc name strings hk i hi hlt
  rw [denote, denote, hlength, hshows]

end Template

namespace Value

mutual

/-- Deferred values stand only where nodes are shown: those among the values of a template are not
taken by an attribute. -/
def BetweenNodes (look : Look) : Value → Prop
  | .template strings values kind =>
    (∀ shared, look strings kind = some shared → ∀ c ∈ shared.template.parts,
      ∀ name segments, c.kind = .attribute name segments →
      ∀ i, c.valueIndex ≤ i → i < c.valueIndex + segments.size →
      ∀ v, values[i]? = some v → v.deferreds = []) ∧ BetweenNodesAll look values
  | .iterable items => BetweenNodesAll look items
  | .primitive _ | .node _ | .pending _ | .placeholder .. | .absent | .display _ => True

def BetweenNodesAll (look : Look) : List Value → Prop
  | [] => True
  | v :: vs => v.BetweenNodes look ∧ BetweenNodesAll look vs

end

mutual

/-- A value with what the deferred ones come to in their place. -/
def replace (value : DeferredId → Value) : Value → Value
  | .template strings values kind => .template strings (replaceAll value values) kind
  | .iterable items => .iterable (replaceAll value items)
  | .pending d => value d
  | .placeholder d _ => value d
  | .primitive p => .primitive p
  | .node fragment => .node fragment
  | .absent => .absent
  | .display object => .display object

def replaceAll (value : DeferredId → Value) : List Value → List Value
  | [] => []
  | v :: vs => v.replace value :: replaceAll value vs

end

variable {look : Look} {strict : Bool} {forecast : Forecast} {value : DeferredId → Value}
  {objects : Objects}

theorem replaceAll_eq_map (vs : List Value) : replaceAll value vs = vs.map (replace value) := by
  induction vs with
  | nil => rfl
  | cons v vs ih => rw [replaceAll, ih, List.map_cons]

mutual

theorem replace_of_nil (v : Value) (h : v.deferreds = []) : v.replace value = v := by
  match v with
  | .template strings values kind => rw [replace, replaceAll_of_nil values h]
  | .iterable items => rw [replace, replaceAll_of_nil items h]
  | .pending _ | .placeholder _ _ => cases h
  | .primitive _ | .node _ | .absent | .display _ => rfl

theorem replaceAll_of_nil (vs : List Value) (h : deferredsOfAll vs = []) :
    replaceAll value vs = vs := by
  match vs with
  | [] => rfl
  | v :: vs =>
    rw [deferredsOfAll, List.append_eq_nil_iff] at h
    rw [replaceAll, replace_of_nil v h.1, replaceAll_of_nil vs h.2]

end

mutual

/-- Nothing is waited for any more. -/
theorem deferreds_replace (v : Value) (h : ∀ d ∈ v.deferreds, (value d).deferreds = []) :
    (v.replace value).deferreds = [] := by
  match v with
  | .template strings values kind => exact deferredsOfAll_replaceAll values h
  | .iterable items => exact deferredsOfAll_replaceAll items h
  | .pending d | .placeholder d _ => exact h d List.mem_cons_self
  | .primitive _ | .node _ | .absent | .display _ => rfl

theorem deferredsOfAll_replaceAll (vs : List Value)
    (h : ∀ d ∈ deferredsOfAll vs, (value d).deferreds = []) :
    deferredsOfAll (replaceAll value vs) = [] := by
  match vs with
  | [] => rfl
  | v :: vs =>
    rw [deferredsOfAll] at h
    rw [replaceAll, deferredsOfAll, deferreds_replace v fun d hd => h d (List.mem_append_left _ hd),
      deferredsOfAll_replaceAll vs fun d hd => h d (List.mem_append_right _ hd), List.append_nil]

end

mutual

theorem Faithful.replace (v : Value) (h : v.Faithful objects)
    (hvalue : ∀ d ∈ v.deferreds, (value d).Faithful objects) : (v.replace value).Faithful objects := by
  match v with
  | .template strings values kind => exact ⟨h.1, FaithfulAll.replaceAll values h.2 hvalue⟩
  | .iterable items => exact FaithfulAll.replaceAll items h hvalue
  | .pending d | .placeholder d _ => exact hvalue d List.mem_cons_self
  | .primitive _ | .node _ | .absent | .display _ => exact h

theorem FaithfulAll.replaceAll (vs : List Value) (h : FaithfulAll objects vs)
    (hvalue : ∀ d ∈ deferredsOfAll vs, (value d).Faithful objects) :
    FaithfulAll objects (replaceAll value vs) := by
  match vs with
  | [] => trivial
  | v :: vs =>
    rw [deferredsOfAll] at hvalue
    exact ⟨Faithful.replace v h.1 fun d hd => hvalue d (List.mem_append_left _ hd),
      FaithfulAll.replaceAll vs h.2 fun d hd => hvalue d (List.mem_append_right _ hd)⟩

end

mutual

/-- If the deferred values are expected to come to what replaces them, a value will show what it
shows with them replaced. -/
theorem denote_replace (v : Value) (hv : v.BetweenNodes look)
    (h : ∀ d ∈ v.deferreds, ∃ bs, forecast d = .becomes bs ∧
      (value d).denote look strict = some bs) :
    (v.replace value).denote look strict = v.foresee look strict forecast := by
  match v with
  | .template strings values kind =>
    rw [replace, denote, foresee]
    cases hlook : look strings kind with
    | none => rfl
    | some shared =>
      refine Template.denote_congr (meanings_replaceAll values hv.2 h)
        fun c hc name segments hk i hi hlt => ?_
      rw [meanings_eq_map, replaceAll_eq_map, foreseeAll_eq_map, List.map_map, List.getElem?_map,
        List.getElem?_map]
      cases hget : values[i]? with
      | none => rfl
      | some v =>
        have hnil := hv.1 shared hlook c hc name segments hk i hi hlt v hget
        simp only [Option.map_some, Function.comp_apply, replace_of_nil v hnil, foreseen,
          foresee_of_nil hnil]
  | .iterable items =>
    have hitems := meanings_replaceAll items hv h
    have hmapM (ms : List Meaning) : ms.mapM Meaning.branches = (ms.map Meaning.branches).mapM id := by
      rw [List.mapM_map]
      rfl
    rw [replace, denote, foresee, hmapM, hmapM, hitems]
  | .pending d | .placeholder d _ =>
    obtain ⟨bs, hbecomes, hdenote⟩ := h d List.mem_cons_self
    rw [replace, foresee, hbecomes, hdenote, Prospect.inPlaceOf]
  | .primitive _ | .node _ | .absent | .display _ => rw [replace, foresee]

theorem meanings_replaceAll (vs : List Value) (hv : BetweenNodesAll look vs)
    (h : ∀ d ∈ deferredsOfAll vs, ∃ bs, forecast d = .becomes bs ∧
      (value d).denote look strict = some bs) :
    (meanings look strict (replaceAll value vs)).map Meaning.branches =
      (foreseeAll look strict forecast vs).map Meaning.branches := by
  match vs with
  | [] => rfl
  | v :: vs =>
    rw [deferredsOfAll] at h
    rw [replaceAll, meanings, foreseeAll, List.map_cons, List.map_cons,
      denote_replace v hv.1 fun d hd => h d (List.mem_append_left _ hd),
      meanings_replaceAll vs hv.2 fun d hd => h d (List.mem_append_right _ hd)]

end

end Value

end LiveMarkup
