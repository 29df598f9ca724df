import LiveMarkup.Value.Basic

set_option autoImplicit false

/-!
Values for common purposes: class lists, style declarations, optional attributes, lists.
-/

namespace LiveMarkup.Value

/-- The names whose flag is set, for a `class` attribute. -/
def classMap (classes : List (String × Bool)) : Value :=
  .primitive (.str (String.intercalate " " ((classes.filter (·.2)).map (·.1))))

/-- Declarations for a `style` attribute; those with an empty value are left out. -/
def styleMap (declarations : List (String × String)) : Value :=
  .primitive (.str (String.intercalate " "
    ((declarations.filter fun d => !d.2.isEmpty).map fun d => d.1 ++ ": " ++ d.2 ++ ";")))

/-- A value, or null where there is none. -/
def ofOption (value : Option Value) : Value := value.getD null

/-- A value, or the attribute left out where there is none. -/
def ifDefined (value : Option Value) : Value := value.getD .absent

/-- Every item turned into a value. Items are matched by position from render to render. -/
def mapItems {α : Type} (f : α → Value) (items : List α) : Value := .iterable (items.map f)

end LiveMarkup.Value
