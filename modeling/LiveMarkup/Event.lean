import LiveMarkup.Template.Kind
import LiveMarkup.Value.Kind

set_option autoImplicit false

/-!
What the library reports about its work besides results. An event says what happened; its level,
the part of the library it belongs to and its wording follow from that.
-/

namespace LiveMarkup

/-- How much an event matters, the most first. -/
inductive Level where
  | warn
  | debug
  | trace
  deriving DecidableEq, Repr

def Level.name : Level → String
  | .warn => "WARN"
  | .debug => "DEBUG"
  | .trace => "TRACE"

def Level.rank : Level → Nat
  | .warn => 0
  | .debug => 1
  | .trace => 2

/-- The activities that report events. -/
inductive Activity where
  | parsing
  | compiling
  | caching
  | patching
  deriving DecidableEq, Repr

def Activity.target : Activity → String
  | .parsing => "ssr_html::parser"
  | .compiling => "ssr_html::compile"
  | .caching => "ssr_html::cache"
  | .patching => "ssr_html::part"

inductive Event where
  /-- The content of an element was read as one text. -/
  | readRawText (element : String) (bytes : Nat)
  | ignoredDoctype
  | ignoredEndTag (name : String)
  /-- A value stands where none is accepted. -/
  | misplacedValue (value : Nat) (place : ClosedPlace)
  | unboundValue (value : Nat)
  | unboundAttributeValue (value : Nat) (name : String)
  /-- An attribute holds marker text that is no hole. -/
  | staticMarker (name : String)
  | markerMismatch (name : String) (markers holes : Nat)
  | compiled (kind : TemplateKind) (parts values nodes : Nat)
  | identityHit (kind : TemplateKind)
  | contentHit (kind : TemplateKind)
  | cached (kind : TemplateKind) (bytes : Nat)
  | clonedTemplate (parts : Nat)
  | valueCount (expected found : Nat)
  | rebuiltRoot
  | attributeUnchanged (name : String)
  | attributeLeftOut (name : String)
  /-- A value without a text form stands in an attribute. -/
  | noAttributeText (kind : ValueKind)
  | primitiveUnchanged
  | stillWaiting
  | updatedText
  | reusedInstance
  | droppedItems (count : Nat)
  | appliedOutcome (kind : ValueKind)
  | rejectedOutcome
  /-- A deferred was resolved that nothing refers to any more. -/
  | unheldDeferred
  deriving DecidableEq, Repr

namespace Event

def level : Event → Level
  | .misplacedValue .. | .unboundValue _ | .unboundAttributeValue .. | .markerMismatch .. => .warn
  | .noAttributeText _ | .rejectedOutcome => .warn
  | .compiled .. | .cached .. | .valueCount .. | .rebuiltRoot => .debug
  | _ => .trace

def activity : Event → Activity
  | .readRawText .. | .ignoredDoctype | .ignoredEndTag _ => .parsing
  | .misplacedValue .. | .unboundValue _ | .unboundAttributeValue .. => .compiling
  | .staticMarker _ | .markerMismatch .. | .compiled .. => .compiling
  | .identityHit _ | .contentHit _ | .cached .. => .caching
  | _ => .patching

def message : Event → String
  | .readRawText element bytes =>
    "raw text in <" ++ element ++ ">: " ++ toString bytes ++ " bytes"
  | .ignoredDoctype => "ignoring doctype outside document prologue"
  | .ignoredEndTag name => "ignoring stray end tag </" ++ name ++ ">"
  | .misplacedValue value place =>
    "value " ++ toString value ++ " sits in a " ++ place.name ++ " and will be ignored"
  | .unboundValue value => "value " ++ toString value ++ " could not be bound"
  | .unboundAttributeValue value name =>
    "value " ++ toString value ++ " for attribute " ++ name ++ " could not be bound"
  | .staticMarker name => "attribute " ++ name ++ " is static marker text"
  | .markerMismatch name markers holes =>
    "attribute " ++ name ++ " has " ++ toString markers ++ " markers but " ++
      toString holes ++ " holes, skipping"
  | .compiled kind parts values nodes =>
    "compiled " ++ kind.name ++ " template: " ++ toString parts ++ " parts, " ++
      toString values ++ " values, " ++ toString nodes ++ " nodes"
  | .identityHit kind => "identity hit for " ++ kind.name ++ " template"
  | .contentHit kind => "content hit for " ++ kind.name ++ " template"
  | .cached kind bytes =>
    "cached new " ++ kind.name ++ " template (" ++ toString bytes ++ " bytes of markup)"
  | .clonedTemplate parts => "cloned template with " ++ toString parts ++ " parts"
  | .valueCount expected found =>
    "template expects " ++ toString expected ++ " values, got " ++ toString found
  | .rebuiltRoot => "root template changed, rebuilding tree"
  | .attributeUnchanged name => "attribute " ++ name ++ " unchanged"
  | .attributeLeftOut name => "attribute " ++ name ++ " left out"
  | .noAttributeText kind => kind.name ++ " value in attribute position renders as empty"
  | .primitiveUnchanged => "primitive unchanged"
  | .stillWaiting => "still waiting on the same value"
  | .updatedText => "updating text in place"
  | .reusedInstance => "reusing template instance"
  | .droppedItems count => "dropping " ++ toString count ++ " trailing items"
  | .appliedOutcome kind => "applying resolved " ++ kind.name ++ " value"
  | .rejectedOutcome => "pending value rejected, keeping previous content"
  | .unheldDeferred => "resolved a deferred nobody holds"

/-- The event as a line of a log. -/
def line (e : Event) : String :=
  e.level.name ++ " " ++ e.activity.target ++ " " ++ e.message

/-- Whether a log that goes down to `level` shows the event. -/
def reaches (e : Event) (level : Level) : Bool := e.level.rank ≤ level.rank

end Event

end LiveMarkup
