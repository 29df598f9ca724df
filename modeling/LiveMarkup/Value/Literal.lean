import LiveMarkup.Value.Deferred

set_option autoImplicit false

/-!
Values as a developer reads them. Prebuilt nodes show how many there are, deferred values their
state.
-/

namespace LiveMarkup

/-- Items in brackets. -/
def bracketed (items : List String) : String := "[" ++ String.intercalate ", " items ++ "]"

def TemplateStrings.literal (s : TemplateStrings) : String :=
  bracketed (s.fragments.map Text.quoted)

def Fragment.literal (f : Fragment) : String :=
  "Fragment \x7b nodes: " ++ toString f.nodes.tree.size ++ " \x7d"

def Settlement.literal (s : Settlement) : String := "Deferred(" ++ Text.quoted s.name ++ ")"

namespace Value

mutual

def literal (ds : Deferreds) : Value → String
  | .primitive p => "Primitive(" ++ p.literal ++ ")"
  | .template strings values kind =>
    "Template(TemplateResult \x7b strings: " ++ strings.literal ++ ", values: " ++
      bracketed (literals ds values) ++ ", kind: " ++ kind.name ++ " \x7d)"
  | .iterable items => "Iterable(" ++ bracketed (literals ds items) ++ ")"
  | .node fragment => "Node(" ++ fragment.literal ++ ")"
  | .pending d => "Pending(" ++ (ds.poll d).literal ++ ")"
  | .placeholder d shown =>
    "Until \x7b pending: " ++ (ds.poll d).literal ++ ", placeholder: " ++ literal ds shown ++
      " \x7d"
  | .absent => "Absent"
  | .display object => "Display(" ++ Text.quoted object.text ++ ")"

def literals (ds : Deferreds) : List Value → List String
  | [] => []
  | v :: vs => literal ds v :: literals ds vs

end

end Value

end LiveMarkup
