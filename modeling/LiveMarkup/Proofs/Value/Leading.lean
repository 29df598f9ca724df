import LiveMarkup.Value.Deferred
import Mathlib.Logic.Relation

set_option autoImplicit false

/-!
Where values lead. Showing a value goes on to the outcomes of the deferred ones that it has stand-ins
for, and from these to others. Every outcome that is taken on the way makes what is left lighter, if
none of them leads back to itself.
-/

namespace LiveMarkup

open Relation (ReflTransGen TransGen)

namespace Value

mutual

/-- The deferred values whose outcome is shown if there is one. -/
def followed : Value → List DeferredId
  | .template _ values _ => followedOfAll values
  | .iterable items => followedOfAll items
  | .placeholder deferred shown => deferred :: shown.followed
  | .primitive _ | .node _ | .pending _ | .absent | .display _ => []

def followedOfAll : List Value → List DeferredId
  | [] => []
  | v :: vs => v.followed ++ followedOfAll vs

end

theorem mem_followedOfAll {vs : List Value} {v : Value} (hv : v ∈ vs) {d : DeferredId}
    (hd : d ∈ v.followed) : d ∈ followedOfAll vs := by
  induction vs with
  | nil => cases hv
  | cons u vs ih =>
    rw [followedOfAll, List.mem_append]
    rcases List.mem_cons.1 hv with rfl | hv
    · exact .inl hd
    · exact .inr (ih hv)

theorem deferredsOfAll_append (vs ws : List Value) :
    deferredsOfAll (vs ++ ws) = deferredsOfAll vs ++ deferredsOfAll ws := by
  induction vs with
  | nil => rfl
  | cons v vs ih => rw [List.cons_append, deferredsOfAll, deferredsOfAll, ih, List.append_assoc]

mutual

theorem followed_subset {d : DeferredId} : ∀ v : Value, d ∈ v.followed → d ∈ v.deferreds
  | .template _ values _ => followedOfAll_subset values
  | .iterable items => followedOfAll_subset items
  | .placeholder _ shown => fun h => by
    rcases List.mem_cons.1 h with rfl | h
    · exact List.mem_cons_self
    · exact List.mem_cons_of_mem _ (followed_subset shown h)
  | .primitive _ | .node _ | .pending _ | .absent | .display _ => fun h => nomatch h

theorem followedOfAll_subset {d : DeferredId} :
    ∀ vs : List Value, d ∈ followedOfAll vs → d ∈ deferredsOfAll vs
  | [] => fun h => nomatch h
  | v :: vs => fun h => by
    rcases List.mem_append.1 h with h | h
    · exact List.mem_append_left _ (followed_subset v h)
    · exact List.mem_append_right _ (followedOfAll_subset vs h)

end

end Value

namespace Deferreds

variable {ds : Deferreds} {d e : DeferredId} {value : Value}

/-- Showing the outcome of a deferred value goes on to another one. -/
def Leads (ds : Deferreds) (d e : DeferredId) : Prop :=
  ∃ value, ds.poll d = .fulfilled value ∧ e ∈ value.followed

/-- Nothing that a deferred value leads to leads back to itself. -/
def Grounded (ds : Deferreds) (d : DeferredId) : Prop :=
  ∀ e, ReflTransGen ds.Leads d e → ¬TransGen ds.Leads e e

theorem poll_settle (ds : Deferreds) (d d' : DeferredId) (outcome : Settlement) :
    (ds.settle d outcome).poll d' =
      if d = d' ∧ d'.index < ds.outcomes.size then outcome else ds.poll d' := by
  obtain ⟨i⟩ := d
  obtain ⟨j⟩ := d'
  simp only [poll, settle, Array.getD_eq_getD_getElem?, Array.getElem?_setIfInBounds,
    DeferredId.mk.injEq]
  by_cases he : i = j <;> by_cases hlt : j < ds.outcomes.size <;> simp [he, hlt]

theorem poll_settle_of_ne (h : e ≠ d) (o : Settlement) : (ds.settle d o).poll e = ds.poll e := by
  rw [poll_settle, if_neg fun he => h he.1.symm]

theorem foldr_set {α : Type} (g : α → Nat) {l : List α} {i : Nat} {a : α} (h : l[i]? = some a)
    (b : α) : (l.set i b).foldr (fun x total => g x + total) 0 + g a =
      l.foldr (fun x total => g x + total) 0 + g b := by
  induction l generalizing i with
  | nil => cases h
  | cons first l ih =>
    cases i with
    | zero =>
      obtain rfl := Option.some.inj h
      simp only [List.set_cons_zero, List.foldr_cons]
      omega
    | succ i =>
      have hrest := ih (i := i) (by simpa using h)
      simp only [List.set_cons_succ, List.foldr_cons]
      omega

/-- An outcome that is taken out is not counted any more. -/
theorem weight_settle_waiting (h : ds.poll d = .fulfilled value) :
    (ds.settle d .waiting).weight + value.weight = ds.weight := by
  have hget : ds.outcomes.toList[d.index]? = some (.fulfilled value) := by
    rw [poll, Array.getD_eq_getD_getElem?] at h
    rw [Array.getElem?_toList]
    cases ho : ds.outcomes[d.index]? with
    | none => simp [ho] at h
    | some o => simpa [ho] using h
  have hset := foldr_set (fun o : Settlement => (o.value?.map Value.weight).getD 0) hget .waiting
  rw [weight, weight, ← Array.foldr_toList, ← Array.foldr_toList, settle,
    Array.toList_setIfInBounds]
  simpa [Settlement.value?] using hset

theorem weight_le_weight (h : ds.poll d = .fulfilled value) : value.weight ≤ ds.weight := by
  rw [← weight_settle_waiting h]
  omega

/-- What a grounded value leads to is grounded, and does not lead back. -/
theorem Grounded.leads (h : ds.Grounded d) (hl : ds.Leads d e) : ds.Grounded e :=
  fun _ hr => h _ (.head hl hr)

/-- `left` still has the outcomes of all that a deferred value leads to. -/
def Covers (left ds : Deferreds) (d : DeferredId) : Prop :=
  ∀ e, ReflTransGen ds.Leads d e → ∀ value, ds.poll e = .fulfilled value →
    left.poll e = .fulfilled value

/-- What the outcome of a grounded value leads to is left when that outcome is taken out. -/
theorem Covers.leads {left : Deferreds} (h : left.Covers ds d) (hg : ds.Grounded d)
    (hl : ds.Leads d e) : (left.settle d .waiting).Covers ds e := by
  intro e' hr value hpoll
  have hne : e' ≠ d := by
    rintro rfl
    exact hg _ .refl (TransGen.head' hl hr)
  rw [poll_settle_of_ne hne]
  exact h e' (.head hl hr) value hpoll

end Deferreds

/-- Nothing that a value leads to leads back to itself. -/
def Value.Grounded (ds : Deferreds) (v : Value) : Prop := ∀ d ∈ v.followed, ds.Grounded d

theorem Value.grounded_of_nil {ds : Deferreds} {v : Value} (h : v.deferreds = []) :
    v.Grounded ds := by
  intro d hd
  have hm := Value.followed_subset v hd
  rw [h] at hm
  cases hm

/-- The outcome of a grounded value is grounded. -/
theorem Deferreds.Grounded.outcome {ds : Deferreds} {d : DeferredId} {value : Value}
    (h : ds.Grounded d) (hpoll : ds.poll d = .fulfilled value) : value.Grounded ds :=
  fun _ hm => h.leads ⟨value, hpoll, hm⟩

end LiveMarkup
