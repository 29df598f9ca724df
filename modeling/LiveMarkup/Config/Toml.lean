import LiveMarkup.Config.Basic
import LiveMarkup.Toml.Document

set_option autoImplicit false

/-!
Configuration written in TOML. Three keys are known, all others are refused.
-/

namespace LiveMarkup

/-- Sets a truth value under a key that is known. -/
def Html.Style.set (style : Html.Style) : String × Toml.Value → Option Html.Style
  | ("self_close_void", .bool b) => some { style with selfCloseVoid := b }
  | _ => none

/-- The options of a table, or of an array that lists them in order. -/
def Html.Style.ofToml : Toml.Value → Option Html.Style
  | .table _ entries => entries.foldlM Html.Style.set {}
  | .array [] => some {}
  | .array (.bool b :: _) => some { selfCloseVoid := b }
  | _ => none

namespace RenderConfig

def set (config : RenderConfig) : String × Toml.Value → Option RenderConfig
  | ("strict_value_count", .bool b) => some { config with strictValueCount := b }
  | ("detect_documents", .bool b) => some { config with detectDocuments := b }
  | ("serialize", value) => (Html.Style.ofToml value).map fun style => { config with style }
  | _ => none

/-- The configuration that a document gives, if it is one. -/
def ofToml (text : String) : Option RenderConfig :=
  match Toml.Document.parse text with
  | some ⟨entries, []⟩ => entries.foldlM set {}
  | some ⟨entries, [⟨["serialize"], false, below⟩]⟩ =>
    if (entries.lookup "serialize").isSome then none
    else (entries ++ [("serialize", Toml.Value.table false below)]).foldlM set {}
  | _ => none

end RenderConfig

end LiveMarkup
