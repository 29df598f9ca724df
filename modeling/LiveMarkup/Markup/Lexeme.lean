import LiveMarkup.Markup.Error
import LiveMarkup.Text.Blank

set_option autoImplicit false

/-!
Markup cut into text, tags, comments and declarations, before any of them is looked into. A `<`
that opens none of these is text by itself. A construct that is never closed is reported at its
opener, and what follows the opener is read as if it were not there.
-/

namespace LiveMarkup.Markup

open LiveMarkup.Text

inductive Lexeme where
  | text (content : List Char)
  /-- A comment, or a declaration that is treated as one. -/
  | comment (content : List Char)
  | doctype (name : List Char)
  | endTag (name : List Char)
  /-- What stands between the angle brackets of a start tag. -/
  | startTag (interior : List Char)
  | unterminated (what : Construct)
  deriving DecidableEq, Repr

/-- Splits at the `>` that closes a start tag. A `>` in a quoted value does not close it, and a
quote opens a value only after an equals sign and blanks. -/
def breakAtTagClose (quote : Option Char) (afterEquals : Bool) :
    List Char → Option (List Char × List Char)
  | [] => none
  | c :: cs =>
    let continued := fun quote afterEquals =>
      (breakAtTagClose quote afterEquals cs).map fun (inside, rest) => (c :: inside, rest)
    match quote with
    | some q => continued (if c = q then none else some q) false
    | none =>
      if c = '>' then some ([], cs)
      else if c = '=' then continued none true
      else if afterEquals && (c == '"' || c == '\'') then continued (some c) false
      else continued none (afterEquals && isTagSpace c)

theorem length_breakAtTagClose {quote : Option Char} {afterEquals : Bool}
    {s inside rest : List Char} (h : breakAtTagClose quote afterEquals s = some (inside, rest)) :
    rest.length < s.length := by
  induction s generalizing quote afterEquals inside with
  | nil => simp [breakAtTagClose] at h
  | cons c cs ih =>
    have step {q : Option Char} {e : Bool}
        (h : (breakAtTagClose q e cs).map (fun (i, r) => (c :: i, r)) = some (inside, rest)) :
        rest.length < (c :: cs).length := by
      obtain ⟨⟨i, r⟩, hb, he⟩ := Option.map_eq_some_iff.1 h
      obtain ⟨rfl, rfl⟩ := Prod.mk.inj he
      exact Nat.lt_succ_of_lt (ih hb)
    unfold breakAtTagClose at h
    split at h
    · exact step h
    split at h
    · simp only [Option.some.injEq, Prod.mk.injEq] at h
      simp [← h.2]
    split at h
    · exact step h
    split at h
    · exact step h
    · exact step h

/-- The lexeme of a declaration `<!…>`: a doctype if it says so, a comment otherwise. -/
def Lexeme.ofDeclaration (body : List Char) : Lexeme :=
  if sameLetters (body.take 7) ['d', 'o', 'c', 't', 'y', 'p', 'e'] then
    .doctype (trim (body.drop 7))
  else .comment body

/-- The name of an end tag ends at a blank or a slash. -/
def endTagName (letter : Char) (body : List Char) : List Char :=
  letter :: body.takeWhile fun c => !isTagSpace c && c != '/'

/-- The lexeme after a `<`, and the text after it. -/
def Lexeme.afterOpen : List Char → Lexeme × List Char
  | '!' :: '-' :: '-' :: s =>
    match breakOn ['-', '-', '>'] s with
    | some (content, rest) => (.comment content, rest)
    | none => (.unterminated .comment, s)
  | '!' :: s =>
    match breakOn ['>'] s with
    | some (body, rest) => (.ofDeclaration body, rest)
    | none => (.unterminated .declaration, s)
  | '?' :: s =>
    match breakOn ['>'] s with
    | some (body, rest) => (.comment ('?' :: body), rest)
    | none => (.unterminated .declaration, s)
  | '/' :: c :: s =>
    if c.isAlpha then
      match breakOn ['>'] s with
      | some (body, rest) => (.endTag (endTagName c body), rest)
      | none => (.unterminated .endTag, s)
    else (.text ['<'], '/' :: c :: s)
  | c :: s =>
    if c.isAlpha then
      match breakAtTagClose none false s with
      | some (inside, rest) => (.startTag (c :: inside), rest)
      | none => (.unterminated .startTag, s)
    else (.text ['<'], c :: s)
  | [] => (.text ['<'], [])

/-- The lexeme that starts with `c`, and the text after it. -/
def Lexeme.next (c : Char) (cs : List Char) : Lexeme × List Char :=
  if c = '<' then Lexeme.afterOpen cs
  else (.text (c :: cs.takeWhile (· != '<')), cs.dropWhile (· != '<'))

theorem Lexeme.length_afterOpen (s : List Char) : (Lexeme.afterOpen s).2.length ≤ s.length := by
  unfold Lexeme.afterOpen
  split
  · split
    · rename_i h
      have := length_after_of_breakOn h
      simp only [List.length_cons]
      omega
    · simp only [List.length_cons]
      omega
  · split
    · rename_i h
      have := length_after_of_breakOn h
      simp only [List.length_cons]
      omega
    · simp
  · split
    · rename_i h
      have := length_after_of_breakOn h
      simp only [List.length_cons]
      omega
    · simp
  · split
    · split
      · rename_i h
        have := length_after_of_breakOn h
        simp only [List.length_cons]
        omega
      · simp only [List.length_cons]
        omega
    · exact Nat.le_refl _
  · split
    · split
      · rename_i h
        have := length_breakAtTagClose h
        simp only [List.length_cons]
        omega
      · simp
    · exact Nat.le_refl _
  · exact Nat.le_refl _

theorem Lexeme.length_next (c : Char) (cs : List Char) :
    (Lexeme.next c cs).2.length ≤ cs.length := by
  unfold Lexeme.next
  split
  · exact Lexeme.length_afterOpen cs
  · exact (List.dropWhile_suffix _).length_le

end LiveMarkup.Markup
