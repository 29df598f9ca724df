set_option autoImplicit false

/-!
Text as markup sees it: ASCII case, the five blank characters of a tag, sizes in bytes of UTF-8,
and the first occurrence of a pattern. Every scanner of this library works on `List Char` and
returns what is left, so the lemmas here say how much a step consumes.
-/

namespace LiveMarkup.Text

/-- The blank characters inside a tag: space, tab, line feed, carriage return, form feed. -/
def isTagSpace (c : Char) : Bool :=
  c == ' ' || c == '\t' || c == '\n' || c == '\r' || c == '\x0c'

/-- Equality up to the case of ASCII letters. -/
def sameLetters (a b : List Char) : Bool :=
  a.map Char.toLower == b.map Char.toLower

def sameName (a b : String) : Bool := sameLetters a.toList b.toList

/-- Bytes that the characters take in UTF-8. -/
def byteSize (cs : List Char) : Nat := cs.foldr (fun c size => c.utf8Size + size) 0

@[simp] theorem byteSize_nil : byteSize [] = 0 := rfl

@[simp] theorem byteSize_cons (c : Char) (cs : List Char) :
    byteSize (c :: cs) = c.utf8Size + byteSize cs := rfl

@[simp] theorem byteSize_append (a b : List Char) :
    byteSize (a ++ b) = byteSize a + byteSize b := by
  induction a with
  | nil => simp
  | cons c a ih => simp [ih, Nat.add_assoc]

/-- The text before the first occurrence of `pattern`, and the text after it. -/
def breakOn (pattern : List Char) : List Char → Option (List Char × List Char)
  | [] => if pattern.isEmpty then some ([], []) else none
  | c :: cs =>
    if pattern.isPrefixOf (c :: cs) then some ([], (c :: cs).drop pattern.length)
    else (breakOn pattern cs).map fun (before, after) => (c :: before, after)

/-- Breaking loses nothing. -/
theorem append_of_breakOn {pattern s before after : List Char}
    (h : breakOn pattern s = some (before, after)) : before ++ pattern ++ after = s := by
  induction s generalizing before with
  | nil =>
    simp only [breakOn] at h
    split at h <;> simp_all
  | cons c cs ih =>
    simp only [breakOn] at h
    split at h
    · rename_i hp
      obtain ⟨rest, hr⟩ := List.isPrefixOf_iff_prefix.1 hp
      simp only [Option.some.injEq, Prod.mk.injEq] at h
      obtain ⟨rfl, rfl⟩ := h
      simp [← hr]
    · obtain ⟨⟨b, a⟩, hb, he⟩ := Option.map_eq_some_iff.1 h
      simp only [Prod.mk.injEq] at he
      obtain ⟨rfl, rfl⟩ := he
      simpa using ih hb

theorem length_after_of_breakOn {pattern s before after : List Char}
    (h : breakOn pattern s = some (before, after)) : after.length ≤ s.length := by
  have := append_of_breakOn h
  simp only [← this, List.length_append]
  omega

/-- The texts between the occurrences of `pattern`, from left to right: one more than there are
occurrences. -/
def splitOn (pattern s : List Char) : List (List Char) :=
  match breakOn pattern s with
  | some (before, after) =>
    if after.length < s.length then before :: splitOn pattern after else [s]
  | none => [s]
termination_by s.length

end LiveMarkup.Text
