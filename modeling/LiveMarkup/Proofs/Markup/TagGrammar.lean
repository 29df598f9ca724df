import LiveMarkup.Proofs.Markup.Spelling
import Mathlib.Data.List.Chain

set_option autoImplicit false

/-!
The grammar of start tags. A tag is a word and then items; what tokens an item derives depends on
what follows, since a word alone is not followed by an equals sign and an unquoted value takes all
it can. The reader of tags accepts exactly what the grammar derives.
-/

namespace LiveMarkup.Markup

/-- Blanks that may be there or not. -/
def OptionalSpace (ts : List TagToken) : Prop := ts = [] ∨ ts = [.space]

/-- The tokens that an item derives in front of `rest`. -/
inductive TagItem.Derives (rest : List TagToken) : TagItem → List TagToken → Prop
  | space : Derives rest .space [.space]
  | slash : Derives rest .slash [.slash]
  | bare {name : String}
    (hnot : ∀ before after, OptionalSpace before → rest ≠ before ++ .equals :: after) :
    Derives rest (.attribute name "") [.word name]
  | quoted {name value : String} {before after : List TagToken} (hbefore : OptionalSpace before)
    (hafter : OptionalSpace after) :
    Derives rest (.attribute name value)
      (.word name :: (before ++ .equals :: (after ++ [.quoted value])))
  /-- A run of words, slashes and equals signs that nothing continues. -/
  | unquoted {name : String} {before after run : List TagToken} {pieces : List String}
    (hbefore : OptionalSpace before) (hafter : OptionalSpace after) (hne : run ≠ [])
    (hrun : run.map TagToken.unquoted? = pieces.map some)
    (hstop : ∀ t ∈ rest.head?, t.unquoted? = none) :
    Derives rest (.attribute name (String.join pieces))
      (.word name :: (before ++ .equals :: (after ++ run)))

/-- Items one after the other. -/
inductive TagItem.DerivesAll : List TagItem → List TagToken → Prop
  | nil : DerivesAll [] []
  | cons {item : TagItem} {items : List TagItem} {own rest : List TagToken}
    (hitem : item.Derives rest own) (hitems : DerivesAll items rest) :
    DerivesAll (item :: items) (own ++ rest)

/-- Blanks that stand side by side are one token. -/
def SpacesApart (ts : List TagToken) : Prop := ts.IsChain fun a b => ¬ (a = .space ∧ b = .space)

/-- The tokens without their places. -/
def bareTokens (ts : List Placed) : List TagToken := ts.map Prod.fst

@[simp] theorem bareTokens_cons (t : Placed) (ts : List Placed) :
    bareTokens (t :: ts) = t.1 :: bareTokens ts := rfl

theorem bareTokens_eq_nil {ts : List Placed} (h : bareTokens ts = []) : ts = [] :=
  List.map_eq_nil_iff.1 h

theorem bareTokens_eq_cons {ts : List Placed} {token : TagToken} {rest : List TagToken}
    (h : bareTokens ts = token :: rest) :
    ∃ span ts', ts = (token, span) :: ts' ∧ bareTokens ts' = rest := by
  obtain ⟨⟨_, span⟩, ts', rfl, rfl, hrest⟩ := List.map_eq_cons_iff.1 h
  exact ⟨span, ts', rfl, hrest⟩

namespace SpacesApart

variable {ts us : List TagToken}

theorem of_append (h : SpacesApart (ts ++ us)) : SpacesApart us := (List.isChain_append.1 h).2.1

theorem tail {t : TagToken} (h : SpacesApart (t :: ts)) : SpacesApart ts :=
  List.isChain_of_isChain_cons h

end SpacesApart

theorem Tokens.spacesApart {start : Nat} {cs : List Char} {ts : List Placed}
    (h : Tokens start cs ts) : SpacesApart (bareTokens ts) := by
  induction ts generalizing start cs with
  | nil => exact .nil
  | cons t ts ih =>
    obtain ⟨token, span⟩ := t
    obtain ⟨u, rest, rfl, hfits, start', hrest⟩ := h.cons
    refine List.isChain_cons.2 ⟨?_, ih hrest⟩
    rintro next hnext ⟨rfl, rfl⟩
    -- A blank token takes all the blanks there are, and the next one would begin with one more.
    obtain ⟨span', ts', rfl, -⟩ := bareTokens_eq_cons (List.eq_cons_of_mem_head? hnext)
    obtain ⟨v, rest', rfl, ⟨hne, hv, -⟩, -⟩ := hrest.cons
    obtain ⟨c, v, rfl⟩ := List.exists_cons_of_ne_nil hne
    exact hfits.2.2 ⟨c, v ++ rest', rfl, hv c List.mem_cons_self⟩

section Skipping

variable {ts : List Placed}

theorem bareTokens_skipSpaces (ts : List Placed) :
    bareTokens (skipSpaces ts) = (bareTokens ts).dropWhile (· == .space) := by
  rw [bareTokens, bareTokens, List.dropWhile_map]
  rfl

/-- Of blanks that stand apart at most one is skipped. -/
theorem skipSpaces_spec (h : SpacesApart (bareTokens ts)) :
    ∃ before, OptionalSpace before ∧ bareTokens ts = before ++ bareTokens (skipSpaces ts) := by
  rw [bareTokens_skipSpaces]
  generalize bareTokens ts = us at h
  match us with
  | [] => exact ⟨[], .inl rfl, rfl⟩
  | [.space] => exact ⟨[.space], .inr rfl, rfl⟩
  | .space :: u :: us =>
    have hu : u ≠ .space := fun he => (List.isChain_cons_cons.1 h).1 ⟨rfl, he⟩
    exact ⟨[.space], .inr rfl, by simp [hu]⟩
  | .equals :: us | .slash :: us | .quoted _ :: us | .word _ :: us => exact ⟨[], .inl rfl, rfl⟩

/-- An optional blank is skipped. -/
theorem skipSpaces_of_optional {before after : List TagToken} (hb : OptionalSpace before)
    (h : bareTokens ts = before ++ after) (hafter : ∀ t ∈ after.head?, t ≠ .space) :
    bareTokens (skipSpaces ts) = after := by
  have hdrop : after.dropWhile (· == TagToken.space) = after := by
    cases after with
    | nil => rfl
    | cons t after => simp [hafter t rfl]
  rw [bareTokens_skipSpaces, h]
  rcases hb with rfl | rfl
  · exact hdrop
  · exact hdrop

end Skipping

/-- An unquoted value is the longest run of tokens that can be part of one. -/
theorem unquotedPieces_spec (ts : List Placed) :
    ∃ run, bareTokens ts = run ++ bareTokens (unquotedPieces ts).2 ∧
      run.map TagToken.unquoted? = (unquotedPieces ts).1.map some ∧
      ∀ t ∈ (bareTokens (unquotedPieces ts).2).head?, t.unquoted? = none := by
  induction ts with
  | nil => exact ⟨[], rfl, rfl, nofun⟩
  | cons t ts ih =>
    rw [unquotedPieces]
    cases hpiece : t.1.unquoted? with
    | none => exact ⟨[], rfl, rfl, by simpa using hpiece⟩
    | some piece =>
      obtain ⟨run, hts, hrun, hstop⟩ := ih
      exact ⟨t.1 :: run, by simp [hts], by simp [hpiece, hrun], hstop⟩

/-- There is only one such run. -/
theorem unquotedPieces_of_run {ts : List Placed} {run rest : List TagToken} {pieces : List String}
    (h : bareTokens ts = run ++ rest) (hrun : run.map TagToken.unquoted? = pieces.map some)
    (hstop : ∀ t ∈ rest.head?, t.unquoted? = none) :
    (unquotedPieces ts).1 = pieces ∧ bareTokens (unquotedPieces ts).2 = rest := by
  induction run generalizing ts pieces with
  | nil =>
    obtain rfl : pieces = [] := by simpa using hrun.symm
    cases ts with
    | nil => exact ⟨rfl, h⟩
    | cons t ts =>
      rw [List.nil_append] at h
      have hnone : t.1.unquoted? = none := hstop t.1 (by simp [← h])
      rw [unquotedPieces, hnone]
      exact ⟨rfl, h⟩
  | cons token run ih =>
    obtain ⟨span, ts, rfl, hts⟩ := bareTokens_eq_cons h
    cases pieces with
    | nil => cases hrun
    | cons piece pieces =>
      obtain ⟨hpiece, hrun⟩ := List.cons.inj hrun
      obtain ⟨hpieces, hrest⟩ := ih hts hrun
      simp only [unquotedPieces, hpiece]
      exact ⟨congrArg _ hpieces, hrest⟩

namespace AttributeTail

variable {ts rest : List Placed}

/-- Without an equals sign there is none behind an optional blank. -/
theorem ne_of_read_bare (hread : AttributeTail.read ts = .bare) (before after : List TagToken)
    (hb : OptionalSpace before) : bareTokens ts ≠ before ++ .equals :: after := by
  intro he
  have hskip := skipSpaces_of_optional hb he (by simp)
  obtain ⟨span, afterEquals, hs, -⟩ := bareTokens_eq_cons hskip
  unfold AttributeTail.read at hread
  rw [hs] at hread
  simp only at hread
  split at hread <;> cases hread

theorem read_eq_bare (h : SpacesApart (bareTokens ts))
    (hnot : ∀ before after, OptionalSpace before → bareTokens ts ≠ before ++ .equals :: after) :
    AttributeTail.read ts = .bare := by
  obtain ⟨before, hb, hts⟩ := skipSpaces_spec h
  unfold AttributeTail.read
  split
  · next span afterEquals hskip =>
    rw [hskip] at hts
    exact absurd hts (hnot before _ hb)
  · rfl

/-- A value that is read is derived behind any name. -/
theorem derives_of_read {text : String} (h : SpacesApart (bareTokens ts))
    (hread : AttributeTail.read ts = .value text rest) :
    ∃ own, bareTokens ts = own ++ bareTokens rest ∧
      ∀ name, (TagItem.attribute name text).Derives (bareTokens rest) (.word name :: own) := by
  obtain ⟨before, hbefore, hts⟩ := skipSpaces_spec h
  unfold AttributeTail.read at hread
  split at hread
  · next span afterEquals hskip =>
    rw [hskip, bareTokens_cons] at hts
    rw [hts] at h ⊢
    obtain ⟨after, hafter, hequals⟩ := skipSpaces_spec h.of_append.tail
    split at hread
    · next value span' others hskip' =>
      obtain ⟨rfl, rfl⟩ := AttributeTail.value.inj hread
      rw [hskip', bareTokens_cons] at hequals
      exact ⟨before ++ .equals :: (after ++ [.quoted value]), by simp [hequals],
        fun name => .quoted hbefore hafter⟩
    · next first others hquoted hskip' =>
      obtain ⟨rfl, rfl⟩ := AttributeTail.value.inj hread
      obtain ⟨run, hsplit, hrun, hstop⟩ := unquotedPieces_spec (first :: others)
      rw [hskip', hsplit] at hequals
      refine ⟨before ++ .equals :: (after ++ run), by simp [hequals],
        fun name => .unquoted hbefore hafter ?_ hrun hstop⟩
      -- The token behind the blanks is neither blank nor quoted, so it is part of the value.
      rintro rfl
      have hfirst : first.1.unquoted? = none := by
        rw [List.nil_append] at hsplit
        exact hstop first.1 (by simp [← hsplit])
      have hspace : first.1 ≠ .space := by
        have hhead := List.head?_dropWhile_not (·.1 == TagToken.space) afterEquals
        rw [← skipSpaces, hskip'] at hhead
        simpa using hhead
      obtain ⟨token, span'⟩ := first
      cases token with
      | space => exact hspace rfl
      | quoted value => exact hquoted _ _ rfl
      | equals | slash | word text => cases hfirst
    · cases hread
  · cases hread

theorem read_quoted {before after us : List TagToken} {value : String}
    (hbefore : OptionalSpace before) (hafter : OptionalSpace after)
    (hts : bareTokens ts = before ++ .equals :: (after ++ .quoted value :: us)) :
    ∃ rest, AttributeTail.read ts = .value value rest ∧ bareTokens rest = us := by
  obtain ⟨span, afterEquals, hs, hequals⟩ :=
    bareTokens_eq_cons (skipSpaces_of_optional hbefore hts (by simp))
  obtain ⟨span', rest, hs', hrest⟩ :=
    bareTokens_eq_cons (skipSpaces_of_optional hafter hequals (by simp))
  refine ⟨rest, ?_, hrest⟩
  unfold AttributeTail.read
  simp only [hs, hs']

theorem read_unquoted {before after run us : List TagToken} {pieces : List String}
    (hbefore : OptionalSpace before) (hafter : OptionalSpace after) (hne : run ≠ [])
    (hrun : run.map TagToken.unquoted? = pieces.map some)
    (hstop : ∀ t ∈ us.head?, t.unquoted? = none)
    (hts : bareTokens ts = before ++ .equals :: (after ++ (run ++ us))) :
    ∃ rest, AttributeTail.read ts = .value (String.join pieces) rest ∧ bareTokens rest = us := by
  obtain ⟨span, afterEquals, hs, hequals⟩ :=
    bareTokens_eq_cons (skipSpaces_of_optional hbefore hts (by simp))
  obtain ⟨first, run', rfl⟩ := List.exists_cons_of_ne_nil hne
  obtain ⟨piece, hpiece⟩ : ∃ piece, first.unquoted? = some piece := by
    cases pieces with
    | nil => cases hrun
    | cons piece pieces => exact ⟨piece, (List.cons.inj hrun).1⟩
  have hskip := skipSpaces_of_optional hafter hequals fun t ht => by
    obtain rfl : first = t := by simpa using ht
    rintro rfl
    cases hpiece
  obtain ⟨span', others, hs', -⟩ := bareTokens_eq_cons hskip
  rw [hs'] at hskip
  obtain ⟨hpieces, hrest⟩ := unquotedPieces_of_run hskip hrun hstop
  refine ⟨_, ?_, hrest⟩
  unfold AttributeTail.read
  simp only [hs, hs']
  split
  · next heq =>
    cases heq
    cases hpiece
  · next heq =>
    cases heq
    rw [hpieces]
  · next heq => cases heq

end AttributeTail

namespace TagItem

section Word

variable {size : Nat} {bare : Bool} {name : String} {span : Span} {ts rest : List Placed}

theorem read_bare (h : AttributeTail.read ts = .bare) :
    TagItem.read size bare ((.word name, span) :: ts) =
      (TagItem.read size true ts).map (.attribute name "" :: ·) := by
  rw [TagItem.read]
  split
  · rfl
  · next h' => cases h.symm.trans h'
  · next h' => cases h.symm.trans h'

theorem read_value {text : String} (h : AttributeTail.read ts = .value text rest) :
    TagItem.read size bare ((.word name, span) :: ts) =
      (TagItem.read size false rest).map (.attribute name text :: ·) := by
  rw [TagItem.read]
  split
  · next h' => cases h.symm.trans h'
  · next h' =>
    obtain ⟨rfl, rfl⟩ := AttributeTail.value.inj (h.symm.trans h')
    rfl
  · next h' => cases h.symm.trans h'

end Word

/-- What is read is derived. -/
theorem derivesAll_of_read {size : Nat} {bare : Bool} {ts : List Placed} {items : List TagItem}
    (h : SpacesApart (bareTokens ts)) (hread : TagItem.read size bare ts = .ok items) :
    DerivesAll items (bareTokens ts) := by
  fun_induction TagItem.read size bare ts generalizing items with
  | case1 bare =>
    obtain rfl := Except.ok.inj hread
    exact .nil
  | case2 bare span ts ih =>
    obtain ⟨items, hitems, rfl⟩ := ok_of_map_ok hread
    exact .cons .space (ih h.tail hitems)
  | case3 bare span ts ih =>
    obtain ⟨items, hitems, rfl⟩ := ok_of_map_ok hread
    exact .cons .slash (ih h.tail hitems)
  | case4 bare name span ts htail ih =>
    obtain ⟨items, hitems, rfl⟩ := ok_of_map_ok hread
    exact .cons (.bare (AttributeTail.ne_of_read_bare htail)) (ih h.tail hitems)
  | case5 bare name span ts text rest htail ih =>
    obtain ⟨items, hitems, rfl⟩ := ok_of_map_ok hread
    rw [bareTokens_cons] at h ⊢
    obtain ⟨own, hts, hown⟩ := AttributeTail.derives_of_read h.tail htail
    rw [hts] at h ⊢
    exact .cons (hown name) (ih h.tail.of_append hitems)
  | case6 => cases hread
  | case7 => cases hread

/-- What is derived is read, whatever the reader remembers of the items before. -/
theorem read_of_derivesAll {items : List TagItem} {tokens : List TagToken}
    (hd : DerivesAll items tokens) (h : SpacesApart tokens) (size : Nat) (bare : Bool)
    {ts : List Placed} (hts : bareTokens ts = tokens) : TagItem.read size bare ts = .ok items := by
  induction hd generalizing bare ts with
  | nil =>
    obtain rfl := bareTokens_eq_nil hts
    rw [TagItem.read]
  | cons hitem hitems ih =>
    have ih := ih h.of_append
    cases hitem with
    | space =>
      obtain ⟨span, ts, rfl, hrest⟩ := bareTokens_eq_cons hts
      rw [TagItem.read, ih bare hrest]
      rfl
    | slash =>
      obtain ⟨span, ts, rfl, hrest⟩ := bareTokens_eq_cons hts
      rw [TagItem.read, ih false hrest]
      rfl
    | bare hnot =>
      obtain ⟨span, ts, rfl, rfl⟩ := bareTokens_eq_cons hts
      rw [read_bare (AttributeTail.read_eq_bare h.of_append hnot), ih true rfl]
      rfl
    | quoted hbefore hafter =>
      obtain ⟨span, ts, rfl, hrest⟩ := bareTokens_eq_cons hts
      obtain ⟨rest, htail, hrest⟩ := AttributeTail.read_quoted hbefore hafter (by simpa using hrest)
      rw [read_value htail, ih false hrest]
      rfl
    | unquoted hbefore hafter hne hrun hstop =>
      obtain ⟨span, ts, rfl, hrest⟩ := bareTokens_eq_cons hts
      obtain ⟨rest, htail, hrest⟩ :=
        AttributeTail.read_unquoted hbefore hafter hne hrun hstop (by simpa using hrest)
      rw [read_value htail, ih false hrest]
      rfl

theorem closes_iff {items : List TagItem} : closes items = true ↔
    ∃ before blanks, items = before ++ .slash :: blanks ∧ ∀ item ∈ blanks, item = .space := by
  rw [closes, beq_iff_eq]
  constructor
  · intro h
    obtain ⟨before, hbefore⟩ := List.head?_eq_some_iff.1 h
    refine ⟨before.reverse, (items.reverse.takeWhile (· == .space)).reverse, ?_,
      fun item hitem => ?_⟩
    · have hsplit :=
        List.takeWhile_append_dropWhile (p := (· == TagItem.space)) (l := items.reverse)
      rw [hbefore] at hsplit
      simpa using (congrArg List.reverse hsplit).symm
    · simpa using List.mem_takeWhile_imp (List.mem_reverse.1 hitem)
  · rintro ⟨before, blanks, rfl, hblanks⟩
    have hreverse : ∀ item ∈ blanks.reverse, (item == TagItem.space) = true := fun item hitem => by
      simpa using hblanks item (List.mem_reverse.1 hitem)
    rw [List.reverse_append, List.reverse_cons, List.append_assoc,
      List.dropWhile_append_of_pos hreverse]
    rfl

end TagItem

namespace StartTag

/-- The tag that a name and items make: its attributes are theirs in order, with the values decoded,
and it closes itself if the last item but blanks is a slash. -/
structure Assembles (tag : StartTag) (name : String) (items : List TagItem) : Prop where
  name : tag.name = name
  attributes : tag.attributes = items.filterMap fun
    | .attribute name value => some ⟨name, CharacterReference.decode value⟩
    | _ => none
  selfClosing : tag.selfClosing = true ↔
    ∃ before blanks, items = before ++ .slash :: blanks ∧ ∀ item ∈ blanks, item = .space

theorem assembles_iff {tag : StartTag} {name : String} {items : List TagItem} :
    tag.Assembles name items ↔ tag = ⟨name, TagItem.attributes items, TagItem.closes items⟩ := by
  constructor
  · rintro ⟨hname, hattributes, hcloses⟩
    obtain ⟨name', attributes, selfClosing⟩ := tag
    obtain rfl : name' = name := hname
    rw [← TagItem.closes_iff, ← Bool.eq_iff_iff] at hcloses
    exact congrArg₂ (StartTag.mk name') hattributes hcloses
  · rintro rfl
    exact ⟨rfl, rfl, TagItem.closes_iff⟩

/-- Pieces that are all tokens. -/
theorem exists_tokens {pieces : List (TagLexeme × Span)} {tokens : List TagToken}
    (h : pieces.map Prod.fst = tokens.map .token) :
    ∃ ts : List Placed, pieces = ts.map (fun t => (.token t.1, t.2)) ∧ bareTokens ts = tokens := by
  induction pieces generalizing tokens with
  | nil => exact ⟨[], rfl, (List.map_eq_nil_iff.1 h.symm).symm⟩
  | cons piece pieces ih =>
    obtain ⟨lexeme, span⟩ := piece
    obtain ⟨token, tokens, rfl, rfl, hrest⟩ := List.map_eq_cons_iff.1 h.symm
    obtain ⟨ts, rfl, rfl⟩ := ih hrest.symm
    exact ⟨(token, span) :: ts, rfl, rfl⟩

theorem parse_of_tokens {interior : String} {ts : List Placed}
    (h : TagLexeme.ofInterior interior = ts.map fun t => (.token t.1, t.2)) :
    parse interior = (ofTokens interior.utf8ByteSize ts).mapError ([·]) := by
  have hfaults : (ts.map fun t => (TagLexeme.token t.1, t.2)).filterMap
      (fun x => (faultOf x.1).map (SyntaxError.mk x.2)) = [] := by
    rw [List.filterMap_map, List.filterMap_eq_nil_iff]
    exact fun _ _ => rfl
  rw [parse, h]
  simp only [hfaults, List.isEmpty_nil, if_true]
  rw [List.filterMap_map]
  change (ofTokens _ (ts.filterMap some)).mapError _ = _
  rw [List.filterMap_some]

theorem ofTokens_eq_ok_iff {size : Nat} {ts : List Placed} (h : SpacesApart (bareTokens ts))
    (tag : StartTag) : ofTokens size ts = .ok tag ↔ ∃ name rest items,
      bareTokens ts = .word name :: rest ∧ TagItem.DerivesAll items rest ∧
        tag.Assembles name items := by
  constructor
  · intro hread
    match ts with
    | (.word name, span) :: ts =>
      obtain ⟨items, hitems, rfl⟩ := ok_of_map_ok hread
      exact ⟨name, _, items, rfl, TagItem.derivesAll_of_read h.tail hitems, assembles_iff.2 rfl⟩
    | [] | (.space, _) :: _ | (.equals, _) :: _ | (.slash, _) :: _ | (.quoted _, _) :: _ =>
      cases hread
  · rintro ⟨name, rest, items, hts, hderives, htag⟩
    obtain ⟨span, ts, rfl, rfl⟩ := bareTokens_eq_cons hts
    rw [ofTokens, TagItem.read_of_derivesAll hderives h.tail size false rfl, assembles_iff.1 htag]
    rfl

/-- A tag whose pieces are all tokens is read exactly if these are a word and items one after the
other, and then it is the tag that the word and the items make. -/
theorem parseAt_eq_ok_iff {offset : Nat} {interior : String} {tokens : List TagToken}
    (h : (TagLexeme.ofInterior interior).map Prod.fst = tokens.map .token) :
    ((∃ tag, parseAt offset interior = .ok tag) ↔
      ∃ name rest items, tokens = .word name :: rest ∧ TagItem.DerivesAll items rest) ∧
    ∀ tag, parseAt offset interior = .ok tag ↔ ∃ name rest items,
      tokens = .word name :: rest ∧ TagItem.DerivesAll items rest ∧ tag.Assembles name items := by
  obtain ⟨ts, hts, rfl⟩ := exists_tokens h
  have hapart : SpacesApart (bareTokens ts) := Tokens.spacesApart hts
  have hok (tag : StartTag) : parseAt offset interior = .ok tag ↔
      ofTokens interior.utf8ByteSize ts = .ok tag := by
    rw [parseAt, parse_of_tokens hts]
    cases ofTokens interior.utf8ByteSize ts with
    | error e => exact ⟨nofun, nofun⟩
    | ok read => simp [Except.mapError]
  have hread (tag : StartTag) := (hok tag).trans (ofTokens_eq_ok_iff hapart tag)
  refine ⟨⟨?_, ?_⟩, hread⟩
  · rintro ⟨tag, htag⟩
    obtain ⟨name, rest, items, htokens, hderives, -⟩ := (hread tag).1 htag
    exact ⟨name, rest, items, htokens, hderives⟩
  · rintro ⟨name, rest, items, htokens, hderives⟩
    exact ⟨_, (hread _).2 ⟨name, rest, items, htokens, hderives, assembles_iff.2 rfl⟩⟩

/-- The inside of a tag with an attribute of each kind, one of them given twice. -/
def mixedInterior : String := "a b c = 'x&amp;' b=/=y/ /"

theorem mixedInterior_parseAt :
    let tokens : List TagToken := [.word "a", .space, .word "b", .space, .word "c", .space, .equals,
      .space, .quoted "x&amp;", .space, .word "b", .equals, .slash, .equals, .word "y", .slash,
      .space, .slash]
    let tag : StartTag := ⟨"a", [⟨"b", ""⟩, ⟨"c", "x&"⟩, ⟨"b", "/=y/"⟩], true⟩
    (TagLexeme.ofInterior mixedInterior).map Prod.fst = tokens.map .token ∧
      parseAt 0 mixedInterior = .ok tag ∧ ∃ name rest items, tokens = .word name :: rest ∧
        TagItem.DerivesAll items rest ∧ tag.Assembles name items := by
  intro tokens tag
  have htokens : (TagLexeme.ofInterior mixedInterior).map Prod.fst = tokens.map .token := by
    decide +kernel
  have htag : parseAt 0 mixedInterior = .ok tag := by decide +kernel
  exact ⟨htokens, htag, ((parseAt_eq_ok_iff htokens).2 tag).1 htag⟩

end StartTag

end LiveMarkup.Markup
