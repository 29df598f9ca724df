import LiveMarkup.Proofs.Value.Denotation

set_option autoImplicit false

/-!
What a value will show. A deferred value that is fulfilled in the end will show the branches of its
outcome, and one that is not goes on showing what stands in for it. Where no deferred value is
fulfilled, this is what the value shows now.
-/

namespace LiveMarkup

/-- What will come of a deferred value. -/
inductive Prospect where
  /-- What stands in for it will be shown for good. -/
  | stays
  /-- Its outcome will show some branches. -/
  | becomes (branches : List (Branch NodeKind))
  /-- It has been applied, and nothing waits for it any more. -/
  | gone

/-- What will be shown for a deferred value that something stands in for. -/
def Prospect.inPlaceOf (standIn : Option (List (Branch NodeKind))) :
    Prospect → Option (List (Branch NodeKind))
  | .becomes bs => some bs
  | .stays | .gone => standIn

/-- What will come of all deferred values. -/
abbrev Forecast := DeferredId → Prospect

namespace Forecast

/-- No deferred value will be fulfilled. -/
def still : Forecast := fun _ => .stays

/-- What can be expected once everything that has settled is applied. -/
def after (forecast : Forecast) (ds : Deferreds) : Forecast := fun d =>
  if (ds.poll d).isSettled then .gone else forecast d

/-- Nothing will change any more. -/
def Final (forecast : Forecast) : Prop := ∀ d bs, forecast d ≠ .becomes bs

theorem final_still : still.Final := fun _ _ h => by cases h

end Forecast

namespace Value

mutual

/-- The branches that a value will show between nodes. What stands in for a deferred value is left
as it is now, since nothing waits inside it. -/
def foresee (look : Look) (strict : Bool) (forecast : Forecast) :
    Value → Option (List (Branch NodeKind))
  | .primitive p => denote look strict (.primitive p)
  | .template strings values kind =>
    (look strings kind).bind fun shared =>
      shared.template.denote strict (foreseeAll look strict forecast values)
  | .iterable items =>
    ((foreseeAll look strict forecast items).mapM Meaning.branches).map Branch.separated
  | .node fragment => denote look strict (.node fragment)
  | .pending d => (forecast d).inPlaceOf (some [])
  | .placeholder d shown => (forecast d).inPlaceOf (denote look strict shown)
  | .absent => denote look strict .absent
  | .display object => denote look strict (.display object)

/-- Values with the branches that they will show. -/
def foreseeAll (look : Look) (strict : Bool) (forecast : Forecast) : List Value → List Meaning
  | [] => []
  | v :: vs => ⟨v, foresee look strict forecast v⟩ :: foreseeAll look strict forecast vs

end

/-- A value with the branches that it will show. -/
def foreseen (look : Look) (strict : Bool) (forecast : Forecast) (v : Value) : Meaning :=
  ⟨v, v.foresee look strict forecast⟩

variable {look : Look} {strict : Bool} {forecast forecast' : Forecast}

theorem foreseeAll_eq_map (values : List Value) :
    foreseeAll look strict forecast values = values.map (foreseen look strict forecast) := by
  induction values with
  | nil => rfl
  | cons v vs ih => rw [foreseeAll, ih, List.map_cons, foreseen]

mutual

theorem foresee_still (v : Value) : v.foresee look strict .still = v.denote look strict := by
  match v with
  | .template strings values kind => rw [foresee, denote, foreseeAll_still values]
  | .iterable items => rw [foresee, denote, foreseeAll_still items]
  | .pending d | .placeholder d shown => rw [foresee, denote]; rfl
  | .primitive _ | .node _ | .absent | .display _ => rw [foresee]

theorem foreseeAll_still (values : List Value) :
    foreseeAll look strict .still values = meanings look strict values := by
  match values with
  | [] => rfl
  | v :: vs => rw [foreseeAll, meanings, foresee_still v, foreseeAll_still vs]

end

mutual

/-- Only the deferred values in a value matter. -/
theorem foresee_congr (v : Value) (h : ∀ d ∈ v.deferreds, forecast d = forecast' d) :
    v.foresee look strict forecast = v.foresee look strict forecast' := by
  match v with
  | .template strings values kind => rw [foresee, foresee, foreseeAll_congr values h]
  | .iterable items => rw [foresee, foresee, foreseeAll_congr items h]
  | .pending d => rw [foresee, foresee, h d List.mem_cons_self]
  | .placeholder d shown => rw [foresee, foresee, h d List.mem_cons_self]
  | .primitive _ | .node _ | .absent | .display _ => rw [foresee, foresee]

theorem foreseeAll_congr (values : List Value)
    (h : ∀ d ∈ deferredsOfAll values, forecast d = forecast' d) :
    foreseeAll look strict forecast values = foreseeAll look strict forecast' values := by
  match values with
  | [] => rfl
  | v :: vs =>
    rw [deferredsOfAll] at h
    rw [foreseeAll, foreseeAll, foresee_congr v fun d hd => h d (List.mem_append_left _ hd),
      foreseeAll_congr vs fun d hd => h d (List.mem_append_right _ hd)]

end

/-- A value without deferred ones shows what it will show. -/
theorem foresee_of_nil {v : Value} (h : v.deferreds = []) :
    v.foresee look strict forecast = v.denote look strict := by
  rw [← foresee_still]
  refine foresee_congr v fun d hd => ?_
  rw [h] at hd
  cases hd

end Value

end LiveMarkup
