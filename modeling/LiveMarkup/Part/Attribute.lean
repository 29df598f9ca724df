import LiveMarkup.Part.Basic

set_option autoImplicit false

/-!
Attribute parts. The attribute is written when one of its values changed, and taken away when one of
them is absent.
-/

namespace LiveMarkup.AttributePart

/-- The segments with the values' texts between them; a missing value adds nothing. -/
def interleave : List String → List Value → String × List Event
  | [], _ => ("", [])
  | [last], _ => (last, [])
  | segment :: segments, [] => let rest := interleave segments []; (segment ++ rest.1, rest.2)
  | segment :: segments, value :: values =>
    let shown := value.attributeText
    let rest := interleave segments values
    (segment ++ shown.1 ++ rest.1, shown.2 ++ rest.2)

/-- The attribute's value. An iterable that is the whole value is joined without a separator. -/
def text (strings : AttributeStrings) (values : List Value) : String × List Event :=
  match strings with
  | .whole =>
    match values with
    | .iterable items :: _ => let texts := Value.attributeTexts items; (String.join texts.1, texts.2)
    | value :: _ => value.attributeText
    | [] => ("", [])
  | .interpolated segments => interleave segments values

/-- Whether the values are those that the attribute was last computed from. -/
def unchanged (part : AttributePart) (values : List Value) : Bool :=
  match part.previous with
  | some previous => Value.sameAll previous values
  | none => false

/-- Brings the attribute in step with its values. -/
def setValues (part : AttributePart) (tree : Tree) (values : List Value) :
    AttributePart × Tree × List Event :=
  if part.unchanged values then (part, tree, [.attributeUnchanged part.name])
  else
    let updated := { part with previous := some values }
    if values.any Value.isAbsent then
      let removed := tree.removeAttribute part.element part.name
      (updated, removed.1, if removed.2.isSome then [.attributeLeftOut part.name] else [])
    else
      let written := text part.strings values
      (updated, (tree.setAttribute part.element part.name written.1).1, written.2)

end LiveMarkup.AttributePart
