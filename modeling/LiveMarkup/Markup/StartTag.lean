import LiveMarkup.Markup.CharacterReference
import LiveMarkup.Markup.Error
import LiveMarkup.Tree.Node

set_option autoImplicit false

/-!
Start tags: a name, then items. An item is a run of blanks, a slash, or an attribute. An attribute
is a word; blanks around an equals sign may follow, and then a value, which is quoted or a run of
words, slashes and equals signs. The reader goes from left to right and gives up at the first token
that no item starts with.
-/

namespace LiveMarkup.Markup

/-- A start tag with its names as written and its values decoded. -/
structure StartTag where
  name : String
  attributes : List Attribute
  selfClosing : Bool
  deriving DecidableEq, Repr

/-- An item of a start tag, its value not decoded. -/
inductive TagItem where
  | space
  | slash
  | attribute (name value : String)
  deriving DecidableEq, Repr

/-- The text that a token adds to an unquoted value. -/
def TagToken.unquoted? : TagToken → Option String
  | .word text => some text
  | .slash => some "/"
  | .equals => some "="
  | _ => none

abbrev Placed := TagToken × Span

def skipSpaces (ts : List Placed) : List Placed := ts.dropWhile (·.1 == .space)

/-- The pieces of an unquoted value, and the tokens after them. -/
def unquotedPieces : List Placed → List String × List Placed
  | [] => ([], [])
  | t :: ts =>
    match t.1.unquoted? with
    | some piece => let tail := unquotedPieces ts; (piece :: tail.1, tail.2)
    | none => ([], t :: ts)

/-- What follows the word that names an attribute. -/
inductive AttributeTail where
  /-- No equals sign. -/
  | bare
  /-- An equals sign and a value, and the tokens after it. -/
  | value (text : String) (rest : List Placed)
  /-- An equals sign, and nothing after it. -/
  | missing

def AttributeTail.read (ts : List Placed) : AttributeTail :=
  match skipSpaces ts with
  | (.equals, _) :: afterEquals =>
    match skipSpaces afterEquals with
    | (.quoted text, _) :: rest => .value text rest
    | first :: rest =>
      let run := unquotedPieces (first :: rest)
      .value (String.join run.1) run.2
    | [] => .missing
  | _ => .bare

theorem length_skipSpaces (ts : List Placed) : (skipSpaces ts).length ≤ ts.length :=
  (List.dropWhile_suffix _).length_le

theorem length_unquotedPieces (ts : List Placed) : (unquotedPieces ts).2.length ≤ ts.length := by
  induction ts with
  | nil => simp [unquotedPieces]
  | cons t ts ih =>
    simp only [unquotedPieces]
    split
    · simp only [List.length_cons]
      omega
    · exact Nat.le_refl _

theorem AttributeTail.length_rest {ts rest : List Placed} {text : String}
    (h : AttributeTail.read ts = .value text rest) : rest.length ≤ ts.length := by
  have h₁ := length_skipSpaces ts
  unfold AttributeTail.read at h
  split at h
  · rename_i afterEquals hs
    have h₂ := length_skipSpaces afterEquals
    rw [hs] at h₁
    simp only [List.length_cons] at h₁
    split at h
    · rename_i hv
      rw [hv] at h₂
      simp only [List.length_cons] at h₂
      cases h
      omega
    · rename_i first tail _ hv
      have h₃ := length_unquotedPieces (first :: tail)
      rw [hv] at h₂
      obtain ⟨_, rfl⟩ := AttributeTail.value.inj h
      exact Nat.le_trans h₃ (by omega)
    · cases h
  · cases h

/-- Reads items up to the end of the tag at byte `size`. `bare` says that the last item but blanks
was an attribute without a value, which an equals sign could still have given one. -/
def TagItem.read (size : Nat) (bare : Bool) : List Placed → Except SyntaxError (List TagItem)
  | [] => .ok []
  | (.space, _) :: ts => (TagItem.read size bare ts).map (.space :: ·)
  | (.slash, _) :: ts => (TagItem.read size false ts).map (.slash :: ·)
  | (.word name, _) :: ts =>
    match _h : AttributeTail.read ts with
    | .bare => (TagItem.read size true ts).map (.attribute name "" :: ·)
    | .value text rest => (TagItem.read size false rest).map (.attribute name text :: ·)
    | .missing => .error ⟨⟨size, size⟩, .unexpected none [.space]⟩
  | (found, span) :: _ =>
    .error ⟨span, .unexpected (some found)
      (if bare then [.space, .equals, .slash, .endOfTag] else [.space, .slash, .endOfTag])⟩
termination_by ts => ts.length
decreasing_by
  · simp
  · simp
  · simp
  · have := AttributeTail.length_rest _h
    simp only [List.length_cons]
    omega

/-- The attributes of the items, in order, values decoded. -/
def TagItem.attributes (items : List TagItem) : List Attribute :=
  items.filterMap fun
    | .attribute name value => some ⟨name, CharacterReference.decode value⟩
    | _ => none

/-- Whether the last item but blanks is a slash. -/
def TagItem.closes (items : List TagItem) : Bool :=
  (items.reverse.dropWhile (· == .space)).head? == some .slash

namespace StartTag

/-- Reads the tokens of a tag that is `size` bytes long. -/
def ofTokens (size : Nat) : List Placed → Except SyntaxError StartTag
  | (.word name, _) :: ts =>
    (TagItem.read size false ts).map fun items =>
      ⟨name, TagItem.attributes items, TagItem.closes items⟩
  | (found, span) :: _ => .error ⟨span, .unexpected (some found) []⟩
  | [] => .error ⟨⟨size, size⟩, .unexpected none []⟩

def faultOf : TagLexeme → Option Fault
  | .token _ => none
  | .openQuote => some (.unterminated .quotedValue)
  | .stray => some .strayCharacter

/-- Reads the inside of a start tag. Pieces that are no tokens are all reported, and only then the
grammar is asked. -/
def parse (interior : String) : Except (List SyntaxError) StartTag :=
  let pieces := TagLexeme.ofInterior interior
  let faults := pieces.filterMap fun (piece, span) => (faultOf piece).map (SyntaxError.mk span)
  if faults.isEmpty then
    let tokens := pieces.filterMap fun
      | (.token token, span) => some (token, span)
      | _ => none
    (ofTokens interior.utf8ByteSize tokens).mapError ([·])
  else .error faults

/-- Reads the inside of a start tag that begins at byte `offset` of its markup. -/
def parseAt (offset : Nat) (interior : String) : Except (List SyntaxError) StartTag :=
  (parse interior).mapError (·.map (·.later offset))

end StartTag

end LiveMarkup.Markup
