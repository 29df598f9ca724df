import LiveMarkup.Text.Extending
import LiveMarkup.Text.Unseen

set_option autoImplicit false

/-!
Text in double quotes, as a developer reads it: quotes, backslashes and line ends are escaped, and
so is every character that would not show by itself.
-/

namespace LiveMarkup.Text

/-- The sound marks of halfwidth Katakana extend the character before them, but have a shape and a
place of their own. -/
def isSoundMark (c : Char) : Bool := c == '\uff9e' || c == '\uff9f'

/-- Whether a character shows by itself. -/
def shows (c : Char) : Bool :=
  (' ' ≤ c && c ≤ '~') || isSoundMark c ||
    !(inRanges unseen c || inRanges ignorable c || inRanges extending c ||
      inRanges laterExtending c)

/-- A character between double quotes. -/
def quotedChar (c : Char) : List Char :=
  if c = '"' then ['\\', '"']
  else if c = '\\' then ['\\', '\\']
  else if c = '\n' then ['\\', 'n']
  else if c = '\r' then ['\\', 'r']
  else if c = '\t' then ['\\', 't']
  else if c.toNat = 0 then ['\\', '0']
  else if shows c then [c]
  else '\\' :: 'u' :: '\x7b' :: (Nat.toDigits 16 c.toNat ++ ['\x7d'])

def quoted (s : String) : String := String.ofList ('"' :: (s.toList.flatMap quotedChar ++ ['"']))

end LiveMarkup.Text
