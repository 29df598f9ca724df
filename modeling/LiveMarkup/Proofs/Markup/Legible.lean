import LiveMarkup.Proofs.Markup.OpenTag
import LiveMarkup.Proofs.Markup.Shape

set_option autoImplicit false

/-!
What is parsed can be written. The names in a parsed tree are words that begin with a letter, and
its comments end where they are closed, so that the tags and comments that are written for them are
read as the same tags and comments.
-/

namespace LiveMarkup

/-- A node whose names and whose comment are read as they are written. -/
def NodeKind.Legible : NodeKind → Prop
  | .element name attributes => Markup.StartTag.Legible ⟨name, attributes, false⟩
  | .comment content => ¬ ['-', '-', '>'] <:+: content.toList
  | _ => True

/-- A branch all of whose nodes are legible. -/
def Branch.Legible (b : Branch NodeKind) : Prop := ∀ kind ∈ b.labels, kind.Legible

namespace Markup

open LiveMarkup.Text

section Lowering

variable {c : Char} {cs : List Char}

theorem isWordChar_of_isLower (h : c.isLower = true) : isWordChar c = true := by
  have hne {d : Char} (hd : d.isLower = false) : c ≠ d := by
    rintro rfl
    rw [h] at hd
    cases hd
  have hspace : isTagSpace c = false := by
    simp only [isTagSpace, Bool.or_eq_false_iff, beq_eq_false_iff_ne]
    exact ⟨⟨⟨⟨hne rfl, hne rfl⟩, hne rfl⟩, hne rfl⟩, hne rfl⟩
  simp only [isWordChar, hspace, Bool.false_or, Bool.not_eq_true', Bool.or_eq_false_iff,
    beq_eq_false_iff_ne]
  exact ⟨⟨⟨⟨hne rfl, hne rfl⟩, hne rfl⟩, hne rfl⟩, hne rfl⟩

theorem isWordChar_toLower (h : isWordChar c = true) : isWordChar c.toLower = true :=
  (toLower_or_isLower c).elim (fun hc => hc.symm ▸ h) isWordChar_of_isLower

theorem isAlpha_toLower (h : c.isAlpha = true) : c.toLower.isAlpha = true :=
  (toLower_or_isLower c).elim (fun hc => hc.symm ▸ h) fun hc => by
    rw [Char.isAlpha, hc, Bool.or_true]

theorem IsWord.toLower {name : String} (h : IsWord name.toList) : IsWord name.toLower.toList := by
  rw [toList_toLower]
  refine ⟨by simpa using h.1, fun c hc => ?_⟩
  obtain ⟨d, hd, rfl⟩ := List.mem_map.1 hc
  exact isWordChar_toLower (h.2 d hd)

theorem starts_isAlpha_toLower {name : String} (h : Starts Char.isAlpha name.toList) :
    Starts Char.isAlpha name.toLower.toList := by
  obtain ⟨c, rest, hname, hc⟩ := h
  rw [toList_toLower, hname]
  exact ⟨_, _, rfl, isAlpha_toLower hc⟩

end Lowering

/-- The element of a legible tag has legible names, in foreign content and outside. -/
theorem StartTag.Legible.elementOf {tag : StartTag} (h : tag.Legible) (foreign : Bool) :
    (NodeKind.element (Builder.elementOf tag foreign).1
      (Builder.elementOf tag foreign).2).Legible := by
  have hname : (Builder.elementOf tag foreign).1 = tag.name ∨
      (Builder.elementOf tag foreign).1 = tag.name.toLower := by
    rw [Builder.elementOf]
    split
    · exact .inl rfl
    · exact .inr rfl
  refine ⟨?_, ?_, fun a ha => ?_⟩
  · rcases hname with he | he <;> rw [he]
    · exact h.name
    · exact h.name.toLower
  · rcases hname with he | he <;> rw [he]
    · exact h.letter
    · exact starts_isAlpha_toLower h.letter
  · obtain ⟨b, hb, rfl⟩ := List.mem_map.1 (mem_of_mem_distinct ha)
    cases foreign with
    | true => exact h.attributes b hb
    | false => exact (h.attributes b hb).toLower

theorem Spells.isWord_of_mem {pieces : List TagPiece} {cs : List Char} (h : Spells pieces cs)
    {a : Attribute} (ha : a ∈ TagItem.attributes (pieces.map TagPiece.item)) :
    IsWord a.name.toList := by
  induction pieces generalizing cs with
  | nil => cases ha
  | cons p pieces ih =>
    obtain ⟨rest, -, hp, hrest⟩ := h
    rw [List.map_cons, TagItem.attributes, List.filterMap_cons] at ha
    cases p with
    | space | slash => exact ih hrest ha
    | bare name | unquoted name | quoted name =>
      rcases List.mem_cons.1 ha with rfl | ha
      · simpa using hp.1
      · exact ih hrest ha

/-- A comment that is read does not hold what closes it. -/
theorem Lexeme.not_infix_of_afterOpen {cs content : List Char}
    (h : (afterOpen cs).1 = .comment content) : ¬ ['-', '-', '>'] <:+: content := by
  have hdeclaration {body : List Char} (hbody : '>' ∉ body) : ¬ ['-', '-', '>'] <:+: body :=
    fun hheld => hbody (hheld.subset (by simp))
  revert h
  fun_cases afterOpen cs with
  | case1 s body rest hbreak =>
    intro h
    obtain rfl := Lexeme.comment.inj h
    exact not_infix_of_breakOn (by simp) hbreak
  | case3 s _ body rest hbreak =>
    rw [ofDeclaration]
    split
    · intro h
      cases h
    · intro h
      obtain rfl := Lexeme.comment.inj h
      exact hdeclaration (not_mem_of_breakOn hbreak)
  | case5 s body rest hbreak =>
    intro h
    obtain rfl := Lexeme.comment.inj h
    refine hdeclaration fun hmem => ?_
    rcases List.mem_cons.1 hmem with he | hmem
    · cases he
    · exact not_mem_of_breakOn hbreak hmem
  | _ =>
    intro h
    cases h

/-- A tag that is read as it is spelled has legible names. -/
theorem Token.Written.legible {tag : StartTag} {u rest : List Char}
    (h : (Token.startTag tag).Written u rest) : tag.Legible := by
  cases h with
  | declaration hkind => exact hkind.elim
  | @startTag name interior rest pieces hname hletter hstop hpieces =>
    exact ⟨by simpa [StartTag.ofPieces] using hname, by simpa [StartTag.ofPieces] using hletter,
      fun a ha => hpieces.isWord_of_mem ha⟩

/-- A token that is read as it is written. -/
def Token.Legible : Token → Prop
  | .startTag tag => tag.Legible
  | .comment content => ¬ ['-', '-', '>'] <:+: content.toList
  | _ => True

theorem Lexeme.not_infix_of_next {c : Char} {cs content : List Char}
    (h : (next c cs).1 = .comment content) : ¬ ['-', '-', '>'] <:+: content := by
  unfold next at h
  split at h
  · exact not_infix_of_afterOpen h
  · cases h

theorem Lexing.legible_scan (start foreign : Nat) (cs : List Char) :
    ∀ t ∈ (scan start foreign cs).tokens, t.1.Legible := by
  have htag {start c cs interior tag} (hlexeme : (Lexeme.next c cs).1 = .startTag interior)
      (hparse : StartTag.parseAt (start + 1) (String.ofList interior) = .ok tag) : tag.Legible := by
    obtain ⟨u, hu, hreads⟩ := Lexeme.reads_next c cs
    rw [hlexeme] at hreads
    obtain ⟨rfl, halpha⟩ := hreads
    have hwritten : (Token.startTag tag).Written ('<' :: (interior ++ ['>'])) [] :=
      StartTag.written_of_parseAt hparse halpha
    exact hwritten.legible
  fun_induction scan start foreign cs with
  | case1 =>
    intro t ht
    cases ht
  | case2 start foreign c cs lexeme rest stop span content hlexeme ih
  | case4 start foreign c cs lexeme rest stop span name hlexeme ih
  | case5 start foreign c cs lexeme rest stop span name hlexeme name' ih =>
    exact List.forall_mem_cons.2 ⟨trivial, ih⟩
  | case3 start foreign c cs lexeme rest stop span content hlexeme ih =>
    refine List.forall_mem_cons.2 ⟨?_, ih⟩
    rw [Token.Legible, String.toList_ofList]
    exact Lexeme.not_infix_of_next hlexeme
  | case6 start foreign c cs lexeme rest stop span what hlexeme ih => exact ih
  | case7 start foreign c cs lexeme rest stop interior hlexeme errors hparse ih => exact ih
  | case8 start foreign c cs lexeme rest stop span interior hlexeme tag hparse foreign' hmode ih =>
    exact List.forall_mem_cons.2 ⟨htag hlexeme hparse, ih⟩
  | case9 start foreign c cs lexeme rest stop span interior hlexeme tag hparse foreign' mode hmode
      broken after tail tail' ih =>
    refine List.forall_mem_cons.2 ⟨htag hlexeme hparse, ?_⟩
    simp only [tail']
    split
    · exact ih
    · exact List.forall_mem_cons.2 ⟨trivial, ih⟩

/-- A token makes legible nodes. -/
theorem Token.Legible.makes {token : Token} (h : token.Legible) : token.Makes Branch.Legible := by
  cases token with
  | text | rawText | endTag => trivial
  | comment content => exact List.forall_mem_singleton.2 h
  | doctype name => exact List.forall_mem_singleton.2 trivial
  | startTag tag =>
    intro foreign bs hbs
    refine List.forall_mem_cons.2 ⟨h.elementOf foreign, fun kind hkind => ?_⟩
    obtain ⟨b, hb, hkind⟩ := Branch.mem_labelsOfAll.1 hkind
    exact hbs b hb kind hkind

/-- Every node of a parsed tree is legible. -/
theorem legible_of_parseRooted {root : NodeKind} (hroot : root.Legible) {markup : String}
    {r : Rooted} (h : (parseRooted root markup).outcome = .ok r) : r.content.Legible := by
  obtain ⟨bs, -, hcontent⟩ := parseRooted_ok h
  have hall : (Draft.ofTokens root ((Lexing.ofMarkup markup).tokens.map Prod.fst)).All
      Branch.Legible := by
    refine Draft.All.ofTokens (fun _ => List.forall_mem_singleton.2 trivial)
      (fun _ _ _ hbelow => ?_) root fun token htoken => ?_
    · exact List.forall_mem_cons.2 ⟨trivial, (List.forall_mem_cons.1 hbelow).2⟩
    · obtain ⟨t, ht, rfl⟩ := List.mem_map.1 htoken
      exact (Lexing.legible_scan 0 0 _ t ht).makes
  rw [hcontent, Draft.content, Draft.root_ofTokens]
  refine List.forall_mem_cons.2 ⟨hroot, fun kind hkind => ?_⟩
  obtain ⟨b, hb, hkind⟩ := Branch.mem_labelsOfAll.1 hkind
  exact hall.branches b hb kind hkind

end Markup

end LiveMarkup
