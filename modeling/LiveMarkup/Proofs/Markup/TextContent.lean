import LiveMarkup.Proofs.Markup.Building
import LiveMarkup.Proofs.Markup.Canonical
import LiveMarkup.Proofs.Template.RawContent
import Mathlib

set_option autoImplicit false

/-!
The content that scanning reads as one text is one text in the tree. Scanning counts the open
elements of foreign content, and the tree knows which elements are open. As long as no end tag takes
such an element along with the one that it names, the count is never too high, so that outside
foreign content every element that holds text only is read as one, unless its tag is self-closing.
-/

namespace LiveMarkup

/-- No nodes, or one text. -/
def Branch.OneText (bs : List (Branch NodeKind)) : Prop :=
  bs = [] ∨ ∃ content, bs = [.node (.text content) []]

/-- Whether an element starts foreign content. -/
def NodeKind.isForeignRoot (kind : NodeKind) : Bool := kind.elementName?.any Markup.isForeignRoot

/-- Whether the content of an element is read as one text, outside foreign content. -/
def NodeKind.holdsText (kind : NodeKind) : Bool := (kind.elementName?.bind Markup.textMode).isSome

namespace Branch

mutual

/-- Elements that hold text hold nothing else, outside foreign content. -/
def TextOnly (foreign : Bool) : Branch NodeKind → Prop
  | .node kind bs =>
    ((foreign || kind.isForeignRoot) = false → kind.holdsText = true → OneText bs) ∧
      TextOnlyAll (foreign || kind.isForeignRoot) bs

def TextOnlyAll (foreign : Bool) : List (Branch NodeKind) → Prop
  | [] => True
  | b :: bs => b.TextOnly foreign ∧ TextOnlyAll foreign bs

end

variable {foreign : Bool} {bs cs : List (Branch NodeKind)} {kind : NodeKind}

@[simp] theorem textOnly_node : (Branch.node kind bs).TextOnly foreign ↔
    ((foreign || kind.isForeignRoot) = false → kind.holdsText = true → OneText bs) ∧
      TextOnlyAll (foreign || kind.isForeignRoot) bs := Iff.rfl

@[simp] theorem textOnlyAll_nil : TextOnlyAll foreign [] := trivial

@[simp] theorem textOnlyAll_append :
    TextOnlyAll foreign (bs ++ cs) ↔ TextOnlyAll foreign bs ∧ TextOnlyAll foreign cs := by
  induction bs with
  | nil => simp
  | cons b bs ih => rw [List.cons_append, TextOnlyAll, TextOnlyAll, ih, and_assoc]

@[simp] theorem textOnlyAll_singleton {b : Branch NodeKind} :
    TextOnlyAll foreign [b] ↔ b.TextOnly foreign := by
  rw [TextOnlyAll, TextOnlyAll, and_true]

theorem textOnly_leaf (foreign : Bool) (kind : NodeKind) : (Branch.node kind []).TextOnly foreign :=
  ⟨fun _ _ => .inl rfl, trivial⟩

theorem OneText.textOnlyAll (h : OneText bs) : TextOnlyAll foreign bs := by
  rcases h with rfl | ⟨content, rfl⟩
  · trivial
  · exact textOnlyAll_singleton.2 (textOnly_leaf foreign _)

end Branch

namespace Markup

open Branch (OneText TextOnlyAll)

/-- Whether the innermost of some open elements is foreign content. -/
def inForeign (frames : List Frame) : Bool := (frames.head?.map Frame.foreign).getD false

/-- Elements that are open and may get any content. -/
def Frame.AllOpen : List Frame → Prop
  | [] => True
  | f :: fs => f.foreign = (inForeign fs || isForeignRoot f.name) ∧
    (f.foreign = false → textMode f.name = none) ∧ TextOnlyAll (inForeign fs) f.left ∧ AllOpen fs

namespace Draft

/-- The open elements that an end tag closes along with the one that it names. -/
def closedAlong (d : Draft) (name : String) : List Frame :=
  if d.frames.any fun f => Text.sameName f.name name then
    d.frames.takeWhile fun f => !Text.sameName f.name name
  else []

/-- Whether a token closes no foreign content along with an element inside of which it is, and opens
no element that holds text, outside foreign content, as if it were empty. -/
def accepts (d : Draft) : Token → Bool
  | .startTag tag => d.foreign || !((textMode tag.name).isSome && tag.selfClosing)
  | .endTag name => (d.closedAlong name).all fun f => !isForeignRoot f.name
  | _ => true

def acceptsAll (d : Draft) : List Token → Bool
  | [] => true
  | t :: ts => d.accepts t && (d.add t).acceptsAll ts

/-- A draft that may get any content, with as many elements of foreign content open as scanning
counts, or more. -/
structure Tracks (d : Draft) (foreign : Nat) : Prop where
  frames : Frame.AllOpen d.frames
  inner : TextOnlyAll d.foreign d.inner
  count : foreign ≤ d.frames.countP (isForeignRoot ·.name)

/-- A draft whose innermost open element is called `held`, holds text and has got it, outside foreign
content. -/
structure HoldsText (d : Draft) (held : List Char) : Prop where
  mode : ∃ mode, textMode (String.ofList held) = some mode
  text : OneText d.inner
  opened : ∃ f fs, d.frames = f :: fs ∧ f.foreign = false ∧ inForeign fs = false ∧
    f.name = (String.ofList held).toLower ∧ Tracks { d with inner := f.left, frames := fs } 0

end Draft

variable {f : Frame} {fs : List Frame} {inner inner' : List (Branch NodeKind)} {frames' : List Frame}
  {name : String}

theorem Frame.AllOpen.countP_eq (h : Frame.AllOpen fs) (hf : inForeign fs = false) :
    fs.countP (isForeignRoot ·.name) = 0 := by
  induction fs with
  | nil => rfl
  | cons f fs ih =>
    obtain ⟨hforeign, -, -, hfs⟩ := h
    rw [show f.foreign = false from hf, eq_comm, Bool.or_eq_false_iff] at hforeign
    rw [List.countP_cons_of_neg (by simp [hforeign.2]), ih hfs hforeign.1]

/-- An element that is closed is one that holds text only if it has to. -/
theorem Frame.textOnly (hforeign : f.foreign = (inForeign fs || isForeignRoot f.name))
    (hinner : TextOnlyAll f.foreign inner)
    (hheld : f.foreign = false → textMode f.name = none ∨ OneText inner) :
    (Branch.node f.kind inner).TextOnly (inForeign fs) := by
  have hroot : f.kind.isForeignRoot = isForeignRoot f.name := rfl
  rw [Branch.textOnly_node, hroot, ← hforeign]
  refine ⟨fun hf hholds => (hheld hf).resolve_left fun hnone => ?_, hinner⟩
  have hmode : (textMode f.name).isSome = true := hholds
  rw [hnone] at hmode
  cases hmode

namespace Draft

variable {d : Draft} {foreign : Nat} {token : Token}

/-- Closing elements that may get any content. -/
theorem closeThrough_textOnly (h : Frame.AllOpen fs) (hi : TextOnlyAll (inForeign fs) inner)
    (hc : closeThrough name inner fs = some (inner', frames')) :
    Frame.AllOpen frames' ∧ TextOnlyAll (inForeign frames') inner' := by
  induction fs generalizing inner with
  | nil => cases hc
  | cons f fs ih =>
    obtain ⟨hforeign, hmode, hleft, hfs⟩ := h
    have hclosed : TextOnlyAll (inForeign fs) (f.left ++ [.node f.kind inner]) :=
      Branch.textOnlyAll_append.2 ⟨hleft, Branch.textOnlyAll_singleton.2
        (Frame.textOnly hforeign hi fun hf => .inl (hmode hf))⟩
    rw [closeThrough] at hc
    split at hc
    · obtain ⟨rfl, rfl⟩ := Prod.mk.inj (Option.some.inj hc)
      exact ⟨hfs, hclosed⟩
    · exact ih hfs hclosed hc

/-- The elements that an end tag closes: the one that it names and those inside. -/
theorem closeThrough_frames (hc : closeThrough name inner fs = some (inner', frames')) :
    ∃ f, Text.sameName f.name name = true ∧
      fs = fs.takeWhile (fun f => !Text.sameName f.name name) ++ f :: frames' := by
  induction fs generalizing inner with
  | nil => cases hc
  | cons f fs ih =>
    rw [closeThrough] at hc
    split at hc
    · rename_i hname
      obtain ⟨rfl, rfl⟩ := Prod.mk.inj (Option.some.inj hc)
      exact ⟨f, hname, by simp [hname]⟩
    · rename_i hname
      obtain ⟨g, hg, hfs⟩ := ih hc
      refine ⟨g, hg, ?_⟩
      rw [List.takeWhile_cons_of_pos (by simpa using hname), List.cons_append, ← hfs]

namespace Tracks

theorem put (h : d.Tracks foreign) (kind : NodeKind) : (d.put kind).Tracks foreign :=
  ⟨h.frames, Branch.textOnlyAll_append.2
    ⟨h.inner, Branch.textOnlyAll_singleton.2 (Branch.textOnly_leaf _ kind)⟩, h.count⟩

theorem addText (h : d.Tracks foreign) (content : String) : (d.addText content).Tracks foreign := by
  unfold Draft.addText
  split
  · exact h
  split
  · rename_i before below hlast
    obtain ⟨front, hfront⟩ := List.getLast?_eq_some_iff.1 hlast
    have hinner := h.inner
    rw [hfront, Branch.textOnlyAll_append, Branch.textOnlyAll_singleton] at hinner
    refine ⟨h.frames, ?_, h.count⟩
    change TextOnlyAll d.foreign (d.inner.dropLast ++ [.node (.text (before ++ content)) below])
    rw [hfront, List.dropLast_concat]
    refine Branch.textOnlyAll_append.2 ⟨hinner.1, Branch.textOnlyAll_singleton.2 ?_⟩
    exact ⟨fun _ hholds => (by cases hholds), hinner.2.2⟩
  · exact h.put (.text content)

theorem isForeignRoot_elementOf (tag : StartTag) (b : Bool) :
    isForeignRoot (Builder.elementOf tag b).1 = isForeignRoot tag.name := by
  simp only [Builder.elementOf]
  split
  · rfl
  · exact isForeignRoot_toLower tag.name

/-- An element that is opened outside foreign content holds no text. -/
theorem startElement {tag : StartTag} (h : d.Tracks foreign)
    (hmode : (d.foreign || isForeignRoot tag.name) = false → textMode tag.name = none) :
    (d.startElement tag).Tracks ((Token.startTag tag).foreignAfter foreign) := by
  obtain ⟨inside, hinside⟩ : ∃ inside, inside = (d.foreign || isForeignRoot tag.name) := ⟨_, rfl⟩
  have hroot := isForeignRoot_elementOf tag inside
  have hname : inside = false → (Builder.elementOf tag inside).1 = tag.name.toLower := by
    rintro rfl
    rfl
  rw [Draft.startElement, Token.foreignAfter, ← hinside]
  rw [← hinside] at hmode
  obtain ⟨⟨name, attributes⟩, helement⟩ : ∃ e, e = Builder.elementOf tag inside := ⟨_, rfl⟩
  rw [← helement] at hroot hname ⊢
  simp only at hroot hname ⊢
  by_cases hstays : (if inside = true then tag.selfClosing else isVoid name) = true
  · rw [if_pos hstays]
    have hcount : (isForeignRoot tag.name && !tag.selfClosing) = false := by
      cases hr : isForeignRoot tag.name with
      | false => rfl
      | true =>
        rw [hr, Bool.or_true] at hinside
        simpa [hinside] using hstays
    rw [hcount]
    exact h.put _
  · rw [if_neg hstays]
    have hcount : (isForeignRoot tag.name && !tag.selfClosing) = isForeignRoot tag.name := by
      cases hr : isForeignRoot tag.name with
      | false => rfl
      | true =>
        rw [hr, Bool.or_true] at hinside
        simpa [hinside] using hstays
    refine ⟨⟨?_, fun hf => ?_, h.inner, h.frames⟩, Branch.textOnlyAll_nil, ?_⟩
    · rw [hroot]
      exact hinside
    · rw [hname hf, textMode_toLower]
      exact hmode hf
    · have := h.count
      rw [hcount, List.countP_cons, hroot]
      split <;> simp_all

/-- An end tag closes as many elements of foreign content as it is counted for, or fewer. -/
theorem endElement (h : d.Tracks foreign) (ha : d.accepts (.endTag name) = true) :
    (d.endElement name).Tracks ((Token.endTag name).foreignAfter foreign) := by
  rw [Token.foreignAfter, Draft.endElement]
  have hcount := h.count
  split
  · rename_i inner frames' hc
    obtain ⟨hframes, hinner⟩ := closeThrough_textOnly h.frames h.inner hc
    obtain ⟨f, hname, hsplit⟩ := closeThrough_frames hc
    refine ⟨hframes, hinner, ?_⟩
    have hany : d.frames.any (fun f => Text.sameName f.name name) = true :=
      List.any_eq_true.2 ⟨f, by rw [hsplit]; simp, hname⟩
    have halong : (d.frames.takeWhile fun f => !Text.sameName f.name name).countP
        (isForeignRoot ·.name) = 0 := by
      rw [List.countP_eq_zero]
      intro g hg
      rw [Draft.accepts, closedAlong, if_pos hany, List.all_eq_true] at ha
      simpa using ha g hg
    rw [hsplit, List.countP_append, halong, List.countP_cons,
      isForeignRoot_of_sameName hname] at hcount
    change _ ≤ frames'.countP _
    split <;> rename_i hr <;> simp [hr] at hcount <;> omega
  · refine ⟨h.frames, h.inner, ?_⟩
    split <;> omega

/-- Outside foreign content nothing is counted. -/
theorem eq_zero (h : d.Tracks foreign) (hf : d.foreign = false) : foreign = 0 :=
  Nat.le_zero.1 (h.frames.countP_eq hf ▸ h.count)

/-- A token that no content follows which is one text. -/
theorem add (h : d.Tracks foreign) (ha : d.accepts token = true)
    (hmode : Lexing.modeAfter foreign token = none) :
    (d.add token).Tracks (token.foreignAfter foreign) := by
  cases token with
  | text content | rawText element content => exact h.addText content
  | comment content => exact h.put _
  | doctype name =>
    rw [Draft.add]
    split
    · exact h.put _
    · exact h
  | endTag name => exact h.endElement ha
  | startTag tag =>
    refine h.startElement fun hout => ?_
    obtain ⟨hforeign, hroot⟩ := Bool.or_eq_false_iff.1 hout
    obtain rfl := h.eq_zero hforeign
    -- Outside foreign content the tag is not self-closing, so its content would have been read.
    by_contra hne
    obtain ⟨mode, hsome⟩ := Option.ne_none_iff_exists'.1 hne
    simp [Lexing.modeAfter, Lexing.modeOf, Token.foreignAfter, hroot, hsome, accepts,
      hforeign] at hmode ha
    rw [ha] at hmode
    cases hmode

/-- A start tag whose content is read as one text: outside foreign content it opens an element that
holds text. -/
theorem addStart {tag : StartTag} {mode : TextMode} (h : d.Tracks foreign)
    (hmode : Lexing.modeAfter foreign (.startTag tag) = some mode) :
    (Token.startTag tag).foreignAfter foreign = 0 ∧
      ((d.add (.startTag tag)).Tracks 0 ∨ (d.add (.startTag tag)).HoldsText tag.name.toList ∧
        (d.add (.startTag tag)).inner = []) := by
  rw [Lexing.modeAfter, Lexing.modeOf] at hmode
  split at hmode
  · cases hmode
  rename_i hread
  simp only [Bool.or_eq_true, bne_iff_ne, not_or, ne_eq, not_not] at hread
  have hroot := isForeignRoot_of_textMode hmode
  refine ⟨hread.2, ?_⟩
  cases hd : d.foreign with
  | true =>
    have : (d.startElement tag).Tracks ((Token.startTag tag).foreignAfter foreign) :=
      h.startElement (by simp [hd])
    rw [hread.2] at this
    exact .inl this
  | false =>
    obtain rfl := h.eq_zero hd
    have hvoid : isVoid tag.name.toLower = false := by
      by_contra hv
      have := Html.textMode_of_isVoid (Bool.not_eq_false _ ▸ hv)
      rw [textMode_toLower, hmode] at this
      cases this
    have hopen : d.startElement tag = { d with
        inner := [],
        frames := ⟨tag.name.toLower, (Builder.elementOf tag false).2, false, d.inner⟩ ::
          d.frames } := by
      simp [Draft.startElement, hd, hroot, Builder.elementOf, hvoid]
    rw [Draft.add, hopen]
    exact .inr ⟨⟨⟨mode, by rw [String.ofList_toList]; exact hmode⟩, .inl rfl,
      _, _, rfl, rfl, hd, by rw [String.ofList_toList], h⟩, rfl⟩

/-- All open elements closed. -/
theorem branches (h : d.Tracks foreign) : TextOnlyAll false d.branches := by
  obtain ⟨hframes, hinner, -⟩ := h
  unfold Draft.branches
  have hforeign : d.foreign = inForeign d.frames := rfl
  rw [hforeign] at hinner
  generalize d.inner = inner at hinner
  generalize d.frames = frames at hframes hinner
  induction frames generalizing inner with
  | nil => exact hinner
  | cons f fs ih =>
    obtain ⟨hflag, hmode, hleft, hfs⟩ := hframes
    exact ih _ hfs (Branch.textOnlyAll_append.2 ⟨hleft, Branch.textOnlyAll_singleton.2
      (Frame.textOnly hflag hinner fun hf => .inl (hmode hf))⟩)

end Tracks

namespace HoldsText

variable {held : List Char}

theorem addText (h : d.HoldsText held) (hempty : d.inner = []) (content : String) :
    (d.addText content).HoldsText held := by
  unfold Draft.addText
  split
  · exact h
  · rw [hempty]
    exact ⟨h.mode, .inr ⟨content, by simp [put, hempty]⟩, h.opened⟩

/-- Closing the element that holds text. -/
theorem close (h : d.HoldsText held) :
    ∃ f fs, d.frames = f :: fs ∧ f.name = (String.ofList held).toLower ∧
      Tracks { d with inner := f.left ++ [.node f.kind d.inner], frames := fs } 0 := by
  obtain ⟨⟨mode, hmode⟩, htext, f, fs, hframes, hforeign, hout, hname, hrest⟩ := h
  have hroot : isForeignRoot f.name = false := by
    rw [hname, isForeignRoot_toLower]
    exact isForeignRoot_of_textMode hmode
  refine ⟨f, fs, hframes, hname, hrest.frames, Branch.textOnlyAll_append.2 ⟨hrest.inner,
    Branch.textOnlyAll_singleton.2 (Frame.textOnly ?_ htext.textOnlyAll fun _ => .inr htext)⟩,
    hrest.count⟩
  rw [hforeign, hout, hroot]
  rfl

theorem endTag (h : d.HoldsText held) {n : List Char}
    (hn : n.map Char.toLower = held.map Char.toLower) :
    (d.add (.endTag (String.ofList n))).Tracks 0 := by
  obtain ⟨f, fs, hframes, hname, htracks⟩ := h.close
  have hsame : Text.sameName f.name (String.ofList n) = true := by
    rw [hname, Text.sameName, Text.sameLetters, Text.toLower_ofList, String.toList_ofList,
      String.toList_ofList, hn]
    simp
  simp only [add, endElement, hframes, closeThrough, hsame, if_true]
  exact htracks

theorem branches (h : d.HoldsText held) : TextOnlyAll false d.branches := by
  obtain ⟨f, fs, hframes, -, htracks⟩ := h.close
  have := htracks.branches
  unfold Draft.branches at this ⊢
  rw [hframes]
  exact this

end HoldsText

theorem acceptsAll_append (ts us : List Token) :
    d.acceptsAll (ts ++ us) = (d.acceptsAll ts && (ts.foldl add d).acceptsAll us) := by
  induction ts generalizing d with
  | nil => rfl
  | cons t ts ih => simp [acceptsAll, ih, Bool.and_assoc]

end Draft

/-- The tokens of markup, added to a draft. -/
theorem Lexed.textOnly {start foreign : Nat} {cs : List Char} {tokens : List (Token × Span)}
    (h : Lexed start foreign cs tokens) {d : Draft}
    (hd : d.Tracks foreign ∨ foreign = 0 ∧ ∃ held, d.HoldsText held ∧
      (cs = [] ∨ Hole.Scanner.IsCloser held cs))
    (ha : d.acceptsAll (tokens.map Prod.fst) = true) :
    TextOnlyAll false ((tokens.map Prod.fst).foldl Draft.add d).branches := by
  induction h generalizing d with
  | done => exact hd.elim (·.branches) fun ⟨_, _, hheld, _⟩ => hheld.branches
  | @token start foreign u rest t tokens hwritten hmode hrest ih =>
    rw [List.map_cons, Draft.acceptsAll, Bool.and_eq_true] at ha
    refine ih (.inl ?_) ha.2
    rcases hd with hd | ⟨rfl, held, hheld, hcloses⟩
    · exact hd.add ha.1 hmode
    · obtain ⟨mode, hm⟩ := hheld.mode
      obtain ⟨n, body, -, -, hn, -, rfl⟩ := Hole.Scanner.endTag_of_closes (ne_nil_of_textMode hm)
        (isLower_of_textMode hm) hcloses hwritten
      have hzero : (Token.endTag (String.ofList n)).foreignAfter 0 = 0 := by
        simp [Token.foreignAfter]
      rw [hzero]
      exact hheld.endTag hn
  | @rawText start foreign u content rest tag mode tokens hwritten hmode hbreak hrest ih =>
    rw [List.map_cons, List.map_append, Draft.acceptsAll, Bool.and_eq_true,
      Draft.acceptsAll_append, Bool.and_eq_true] at ha
    rcases hd with hd | ⟨rfl, held, hheld, hcloses⟩
    · obtain ⟨hzero, hopened⟩ := hd.addStart hmode
      have hcloses := Hole.Scanner.closes_of_breakAtEndTag hbreak
      rw [hzero] at ih
      rw [List.map_cons, List.map_append, List.foldl_cons, List.foldl_append]
      refine ih ?_ ha.2.2
      unfold Lexing.contentTokens
      split
      · exact hopened.imp id fun hheld => ⟨rfl, _, hheld.1, hcloses⟩
      · exact hopened.imp (·.addText _) fun hheld =>
          ⟨rfl, _, hheld.1.addText hheld.2 _, hcloses⟩
    · obtain ⟨mode', hm⟩ := hheld.mode
      obtain ⟨n, body, -, -, hn, -, ht⟩ := Hole.Scanner.endTag_of_closes (ne_nil_of_textMode hm)
        (isLower_of_textMode hm) hcloses hwritten
      cases ht

/-- In markup, foreign content is closed by its own end tags, and no element that holds text is
written as an empty one outside foreign content. -/
def Tidy (kind : NodeKind) (markup : String) : Prop :=
  Draft.acceptsAll { root := kind } ((Lexing.ofMarkup markup).tokens.map Prod.fst) = true

theorem parseRooted_textOnly {kind : NodeKind} {markup : String} {r : Rooted}
    (hkind : kind.elementName? = none) (h : (parseRooted kind markup).outcome = .ok r)
    (ht : Tidy kind markup) : r.content.TextOnly false := by
  obtain ⟨bs, -, hcontent⟩ := parseRooted_ok h
  have hroot : kind.isForeignRoot = false := by simp [NodeKind.isForeignRoot, hkind]
  have hempty : Draft.Tracks { root := kind } 0 :=
    ⟨trivial, Branch.textOnlyAll_nil, Nat.zero_le _⟩
  rw [hcontent, Draft.content, Branch.textOnly_node, Draft.root_ofTokens, hroot]
  refine ⟨fun _ hholds => ?_, (Lexed.of_scan (errors_of_parseRooted h)).textOnly (.inl hempty) ht⟩
  simp [NodeKind.holdsText, hkind] at hholds

/-- In the tree of tidy markup, every element whose content is read as one text has no other child,
outside foreign content. -/
theorem parse_textOnly {markup : String} {r : Rooted}
    (h : (parseFragment markup).outcome = .ok r ∧ Tidy .fragment markup ∨
      (parseDocument markup).outcome = .ok r ∧ Tidy .document markup) :
    r.content.TextOnly false := by
  rcases h with ⟨h, ht⟩ | ⟨h, ht⟩
  · exact parseRooted_textOnly rfl h ht
  · exact parseRooted_textOnly rfl h ht

/-- A title that holds an element in foreign content, and one that cannot. -/
def titles : String := "<svg><title><b>x</b></title></svg><p><title>a &amp; <b>x</b></title>"

theorem titles_textOnly : ∃ r, (parseFragment titles).outcome = .ok r ∧ Tidy .fragment titles ∧
    r.content.TextOnly false := by
  have hok : (parseFragment titles).outcome.isOk = true := by decide +kernel
  have htidy : Tidy .fragment titles := by
    rw [Tidy]
    decide +kernel
  cases h : (parseFragment titles).outcome with
  | error errors =>
    rw [h] at hok
    cases hok
  | ok r => exact ⟨r, rfl, htidy, parse_textOnly (.inl ⟨h, htidy⟩)⟩

/-- A title with an element inside. -/
def boldTitle : Branch NodeKind :=
  .node (.element "title" []) [.node (.element "b" []) [.node (.text "x") []]]

theorem not_textOnly_boldTitle (front : List (Branch NodeKind)) :
    ¬ (Branch.node .fragment (front ++ [boldTitle])).TextOnly false := by
  rintro ⟨-, h⟩
  have hfragment : (false || NodeKind.fragment.isForeignRoot) = false := rfl
  have hroot : (false || (NodeKind.element "title" []).isForeignRoot) = false := by decide +kernel
  have hholds : (NodeKind.element "title" []).holdsText = true := by decide +kernel
  rw [hfragment, Branch.textOnlyAll_append, Branch.textOnlyAll_singleton] at h
  rcases h.2.1 hroot hholds with h | ⟨content, h⟩ <;> cases h

/-- Markup whose tokens draft such a title as the last branch. -/
theorem not_textOnly_of_draft {markup : String} {front : List (Branch NodeKind)}
    (hok : (parseFragment markup).outcome.isOk = true)
    (hdraft : (Draft.ofTokens .fragment ((Lexing.ofMarkup markup).tokens.map Prod.fst)).content =
      .node .fragment (front ++ [boldTitle])) :
    ∃ r, (parseFragment markup).outcome = .ok r ∧ ¬ r.content.TextOnly false := by
  cases h : (parseFragment markup).outcome with
  | error errors =>
    rw [h] at hok
    cases hok
  | ok r =>
    obtain ⟨bs, -, hcontent⟩ := parseRooted_ok h
    exact ⟨r, rfl, by rw [hcontent, hdraft]; exact not_textOnly_boldTitle front⟩

/-- A title that is written as an empty one is open in the tree, and an `svg` that the end tag of a
`div` closes is still counted. -/
theorem not_textOnly_of_untidy :
    (∃ r, (parseFragment "<title/><b>x</b></title>").outcome = .ok r ∧
      ¬ r.content.TextOnly false) ∧
    ∃ r, (parseFragment "<div><svg></div><title><b>x</b></title>").outcome = .ok r ∧
      ¬ r.content.TextOnly false := by
  constructor
  · have hdraft : (Draft.ofTokens .fragment ((Lexing.ofMarkup
        "<title/><b>x</b></title>").tokens.map Prod.fst)).content =
          .node .fragment ([] ++ [boldTitle]) := by
      cbv
    exact not_textOnly_of_draft (by decide +kernel) hdraft
  · have hdraft : (Draft.ofTokens .fragment ((Lexing.ofMarkup
        "<div><svg></div><title><b>x</b></title>").tokens.map Prod.fst)).content = .node .fragment
          ([.node (.element "div" []) [.node (.element "svg" []) []]] ++ [boldTitle]) := by
      cbv
    exact not_textOnly_of_draft (by decide +kernel) hdraft

end Markup

end LiveMarkup
