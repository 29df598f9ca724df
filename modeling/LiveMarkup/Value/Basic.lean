import LiveMarkup.Event
import LiveMarkup.Markup.Parse
import LiveMarkup.Template.Strings
import LiveMarkup.Value.Primitive

set_option autoImplicit false

/-!
Values that fill the holes of templates. Prebuilt nodes, shown objects and values that come later
have an identity; two of them are the same value only if they are the same object.
-/

namespace LiveMarkup

/-- A value that is not known yet, by its number. -/
structure DeferredId where
  index : Nat
  deriving DecidableEq, Repr, Inhabited

/-- Prebuilt nodes. A fragment or document as root stands for its children. -/
structure Fragment where
  identity : Nat
  nodes : Markup.Rooted

/-- An object that is shown by its text. -/
structure Display where
  identity : Nat
  text : String
  deriving DecidableEq, Repr

inductive Value where
  | primitive (p : Primitive)
  /-- A template with values of its own, rendered in place. -/
  | template (strings : TemplateStrings) (values : List Value) (kind : TemplateKind)
  /-- Items rendered one after the other. -/
  | iterable (items : List Value)
  /-- Prebuilt nodes, copied in as they are. -/
  | node (fragment : Fragment)
  /-- A value that comes later. -/
  | pending (deferred : DeferredId)
  /-- A value that is shown until a deferred one settles. -/
  | placeholder (deferred : DeferredId) (shown : Value)
  /-- Leaves an attribute out; renders nothing between nodes. -/
  | absent
  | display (object : Display)

/-- One evaluation of a template: its fragments and the values of this render. -/
structure TemplateResult where
  strings : TemplateStrings
  values : List Value
  kind : TemplateKind
  deriving Inhabited

namespace Value

def null : Value := .primitive .null

instance : Inhabited Value := ⟨null⟩

def ofResult (r : TemplateResult) : Value := .template r.strings r.values r.kind

def isNull : Value → Bool
  | .primitive .null => true
  | _ => false

def isAbsent : Value → Bool
  | .absent => true
  | _ => false

def kind : Value → ValueKind
  | .primitive _ => .primitive
  | .template .. => .template
  | .iterable _ => .iterable
  | .node _ => .node
  | .pending _ => .pending
  | .placeholder .. => .placeholder
  | .absent => .absent
  | .display _ => .display

/-- Whether rendering the second value in place of the first would change nothing. Templates and
iterables are made anew for every render and never count as unchanged. -/
def same : Value → Value → Bool
  | .primitive a, .primitive b => a.same b
  | .node a, .node b => a.identity == b.identity
  | .pending a, .pending b => a == b
  | .placeholder a x, .placeholder b y => a == b && x.same y
  | .absent, .absent => true
  | .display a, .display b => a.identity == b.identity
  | _, _ => false

def sameAll : List Value → List Value → Bool
  | [], [] => true
  | a :: as, b :: bs => a.same b && sameAll as bs
  | _, _ => false

mutual

/-- The text of a value inside an attribute, and what there is to report about it. Items are joined
by commas; templates, nodes and pending values have no text. -/
def attributeText : Value → String × List Event
  | .primitive p => (p.text, [])
  | .absent => ("", [])
  | .placeholder _ shown => attributeText shown
  | .display object => (object.text, [])
  | .iterable items =>
    let texts := attributeTexts items
    (String.intercalate "," texts.1, texts.2)
  | .template .. => ("", [.noAttributeText .template])
  | .node _ => ("", [.noAttributeText .node])
  | .pending _ => ("", [.noAttributeText .pending])

def attributeTexts : List Value → List String × List Event
  | [] => ([], [])
  | v :: vs =>
    let first := attributeText v
    let rest := attributeTexts vs
    (first.1 :: rest.1, first.2 ++ rest.2)

end

mutual

/-- How many values a value is made of. -/
def weight : Value → Nat
  | .template _ values _ => weights values + 1
  | .iterable items => weights items + 1
  | .placeholder _ shown => shown.weight + 1
  | _ => 1

def weights : List Value → Nat
  | [] => 0
  | v :: vs => v.weight + weights vs

end

mutual

/-- The fragments that a value refers to itself. -/
def strings : Value → List StringsId
  | .template strings values _ => strings.identity :: stringsOfAll values
  | .iterable items => stringsOfAll items
  | .placeholder _ shown => shown.strings
  | _ => []

def stringsOfAll : List Value → List StringsId
  | [] => []
  | v :: vs => v.strings ++ stringsOfAll vs

end

mutual

/-- The deferred values that a value refers to itself. -/
def deferreds : Value → List DeferredId
  | .template _ values _ => deferredsOfAll values
  | .iterable items => deferredsOfAll items
  | .pending deferred => [deferred]
  | .placeholder deferred shown => deferred :: shown.deferreds
  | _ => []

def deferredsOfAll : List Value → List DeferredId
  | [] => []
  | v :: vs => v.deferreds ++ deferredsOfAll vs

end

end Value

end LiveMarkup
