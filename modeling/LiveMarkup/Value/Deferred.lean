import LiveMarkup.Value.Basic

set_option autoImplicit false

/-!
Values that come later. Each is waiting until it is fulfilled or rejected, once and for all. An
outcome keeps what it refers to in existence, and so do all holders of the deferred value.
-/

namespace LiveMarkup

inductive Settlement where
  | waiting
  | fulfilled (value : Value)
  | rejected

namespace Settlement

def isSettled : Settlement → Bool
  | .waiting => false
  | _ => true

/-- The state in one word. -/
def name : Settlement → String
  | .waiting => "waiting"
  | .fulfilled _ => "fulfilled"
  | .rejected => "rejected"

def value? : Settlement → Option Value
  | .fulfilled value => some value
  | _ => none

end Settlement

/-- All deferred values, by their numbers. -/
structure Deferreds where
  outcomes : Array Settlement := #[]

namespace Deferreds

def poll (ds : Deferreds) (d : DeferredId) : Settlement := ds.outcomes.getD d.index .waiting

/-- Adds a deferred value, waiting or settled. -/
def create (ds : Deferreds) (outcome : Settlement) : Deferreds × DeferredId :=
  (⟨ds.outcomes.push outcome⟩, ⟨ds.outcomes.size⟩)

def settle (ds : Deferreds) (d : DeferredId) (outcome : Settlement) : Deferreds :=
  ⟨ds.outcomes.setIfInBounds d.index outcome⟩

/-- What all outcomes weigh together. -/
def weight (ds : Deferreds) : Nat :=
  ds.outcomes.foldr (fun o total => (o.value?.map Value.weight).getD 0 + total) 0

/-- The outcome's value of a deferred one, if it has any. -/
def outcome? (ds : Deferreds) (d : DeferredId) : Option Value := (ds.poll d).value?

/-- The deferred values that the outcomes of `found` refer to, added to `found`. -/
def widen (ds : Deferreds) (found : List DeferredId) : List DeferredId :=
  ((found.filterMap ds.outcome?).flatMap Value.deferreds).foldl
    (fun found d => if found.contains d then found else d :: found) found

def widenTimes (ds : Deferreds) : Nat → List DeferredId → List DeferredId
  | 0, found => found
  | n + 1, found => ds.widenTimes n (ds.widen found)

/-- The deferred values that can be reached from some, through outcomes. -/
def reach (ds : Deferreds) (start : List DeferredId) : List DeferredId :=
  ds.widenTimes ds.outcomes.size start

/-- Deferred values whose outcome leads back to them. They keep themselves in existence. -/
def selfHeld (ds : Deferreds) : List DeferredId :=
  ((List.range ds.outcomes.size).map DeferredId.mk).filter fun d =>
    (ds.reach ((ds.outcome? d).elim [] Value.deferreds)).contains d

end Deferreds

/-- What keeps fragments and deferred values in existence. -/
structure Holders where
  strings : List StringsId := []
  values : List Value := []
  deriving Inhabited

namespace Holders

def append (a b : Holders) : Holders := ⟨a.strings ++ b.strings, a.values ++ b.values⟩

instance : Append Holders := ⟨append⟩

/-- The deferred values that exist. -/
def deferreds (h : Holders) (ds : Deferreds) : List DeferredId :=
  ds.reach (ds.selfHeld ++ Value.deferredsOfAll h.values)

def holdsDeferred (h : Holders) (ds : Deferreds) (d : DeferredId) : Bool :=
  (h.deferreds ds).contains d

/-- Whether fragments still exist. -/
def holdsStrings (h : Holders) (ds : Deferreds) (id : StringsId) : Bool :=
  h.strings.contains id || (Value.stringsOfAll h.values).contains id ||
    ((h.deferreds ds).filterMap ds.outcome?).any (·.strings.contains id)

end Holders

end LiveMarkup
