import LiveMarkup.Markup.Parse
import LiveMarkup.Proofs.Markup.Letters
import LiveMarkup.Proofs.Markup.Places
import LiveMarkup.Proofs.Text.Separators

set_option autoImplicit false

/-!
Where the values of a start tag's attributes are written. The characters of a tag say it in one way
only, so a reader that goes over them from left to right finds the attributes of the tag, each with
the place of its value.
-/

namespace LiveMarkup

open Text (byteSize breakOn isTagSpace)

namespace Markup

namespace TagPiece

/-- The attribute of a piece that begins at byte `start`, with the place of its value, if one is
written. -/
def written (start : Nat) (p : TagPiece) : Option (Attribute × Option Span) :=
  match p.item with
  | .attribute name value =>
    some (⟨name, CharacterReference.decode value⟩, (p.valueSpan start).map Prod.snd)
  | _ => none

def writtenAll (start : Nat) : List TagPiece → List (Attribute × Option Span)
  | [] => []
  | p :: ps => (p.written start).toList ++ writtenAll (start + byteSize p.chars) ps

/-- The value behind an equals sign, and the rest. -/
def readValue (name before after : List Char) : List Char → Option (TagPiece × List Char)
  | [] => none
  | c :: cs =>
    if c = '"' ∨ c = '\'' then
      (breakOn [c] cs).map fun (value, rest) => (.quoted name before after c value, rest)
    else some (.unquoted name before after ((c :: cs).takeWhile isUnquotedChar),
      (c :: cs).dropWhile isUnquotedChar)

/-- The first piece, and the rest. Blanks are read one by one. -/
def read : List Char → Option (TagPiece × List Char)
  | [] => none
  | c :: cs =>
    if isTagSpace c then some (.space [c], cs)
    else if c = '/' then some (.slash, cs)
    else
      let name := (c :: cs).takeWhile isWordChar
      let tail := (c :: cs).dropWhile isWordChar
      match tail.dropWhile isTagSpace with
      | '=' :: more =>
        readValue name (tail.takeWhile isTagSpace) (more.takeWhile isTagSpace)
          (more.dropWhile isTagSpace)
      | _ => some (.bare name, tail)

/-- The attributes in the characters of a tag from byte `start` on, with the places of their
values. -/
def readAll (start : Nat) (cs : List Char) : List (Attribute × Option Span) :=
  match read cs with
  | some (p, rest) =>
    if rest.length < cs.length then
      (p.written start).toList ++ readAll (start + byteSize p.chars) rest
    else []
  | none => []
termination_by cs.length

variable {p : TagPiece} {pieces : List TagPiece} {start : Nat} {cs rest : List Char}

theorem map_fst_writtenAll (start : Nat) (pieces : List TagPiece) :
    (writtenAll start pieces).map Prod.fst = TagItem.attributes (pieces.map item) := by
  induction pieces generalizing start with
  | nil => rfl
  | cons p ps ih =>
    rw [writtenAll, List.map_append, ih]
    cases p <;> rfl

theorem mem_valueSpans {name : String} {span : Span} :
    (name, span) ∈ valueSpans start pieces ↔
      ∃ a, (a, some span) ∈ writtenAll start pieces ∧ a.name = name := by
  have hpiece (start : Nat) (p : TagPiece) : (name, span) ∈ (p.valueSpan start).toList ↔
      ∃ a, (a, some span) ∈ (p.written start).toList ∧ a.name = name := by
    cases p with
    | unquoted | quoted =>
      simp only [valueSpan, written, item, Option.map_some, Option.toList_some,
        List.mem_singleton, Prod.mk.injEq, Option.some.injEq]
      constructor
      · rintro ⟨rfl, rfl⟩
        exact ⟨_, ⟨rfl, rfl⟩, rfl⟩
      · rintro ⟨_, ⟨rfl, rfl⟩, rfl⟩
        exact ⟨rfl, rfl⟩
    | space | slash | bare => simp [valueSpan, written, item]
  induction pieces generalizing start with
  | nil => simp [valueSpans, writtenAll]
  | cons p ps ih =>
    simp only [valueSpans, writtenAll, List.mem_append, hpiece, ih, or_and_right, exists_or]

/-- Values are written one behind the other. -/
theorem apart_writtenAll (start : Nat) (pieces : List TagPiece) :
    (writtenAll start pieces).Pairwise fun x y =>
      ∀ s ∈ x.2, ∀ s' ∈ y.2, s.stop ≤ s'.start := by
  induction pieces generalizing start with
  | nil => exact .nil
  | cons p ps ih =>
    refine List.pairwise_append.2 ⟨?_, ih _, fun x hx y hy s hs s' hs' => ?_⟩
    · cases p.written start <;> simp
    · have hfirst : s.stop ≤ start + byteSize p.chars := by
        have hx : (x.1.name, s) ∈ valueSpans start [p] :=
          mem_valueSpans.2 ⟨x.1, by simpa [writtenAll, ← Option.mem_def.1 hs] using hx, rfl⟩
        rw [valueSpans, valueSpans, List.append_nil] at hx
        exact (mem_valueSpan hx).2
      have hnext : (y.1.name, s') ∈ valueSpans (start + byteSize p.chars) ps :=
        mem_valueSpans.2 ⟨y.1, by simpa [← Option.mem_def.1 hs'] using hy, rfl⟩
      exact Nat.le_of_lt (Nat.lt_of_le_of_lt hfirst (start_lt_of_mem hnext))

theorem isTagSpace_of_unquoted {c : Char} (h : isUnquotedChar c = true) : isTagSpace c = false := by
  by_contra hs
  rw [Bool.not_eq_false] at hs
  simp only [isUnquotedChar, isWordChar, hs, Bool.or_eq_true, beq_iff_eq] at h
  rcases h with (h | rfl) | rfl
  · simp at h
  · revert hs
    decide
  · revert hs
    decide

theorem not_quote_of_unquoted {c : Char} (h : isUnquotedChar c = true) :
    ¬ (c = '"' ∨ c = '\'') := by
  rintro (rfl | rfl) <;> revert h <;> decide

/-- A piece that is not blank begins with neither a blank nor an equals sign. -/
theorem exists_first (hp : p.Fits rest) (hspace : p.item ≠ .space) :
    ∃ c cs, p.chars = c :: cs ∧ isTagSpace c = false ∧ c ≠ '=' ∧ (p.item = .slash ∨ c ≠ '/') := by
  have hword {name : List Char} (more : List Char) (hn : IsWord name) :
      ∃ c cs, name ++ more = c :: cs ∧ isTagSpace c = false ∧ c ≠ '=' ∧ c ≠ '/' := by
    obtain ⟨c, name, rfl⟩ := List.exists_cons_of_ne_nil hn.1
    have hc := hn.2 c List.mem_cons_self
    refine ⟨c, name ++ more, rfl, isTagSpace_of_unquoted (by simp [isUnquotedChar, hc]), ?_, ?_⟩
    · rintro rfl
      revert hc
      decide
    · rintro rfl
      revert hc
      decide
  cases p with
  | space => exact absurd rfl hspace
  | slash => exact ⟨'/', [], rfl, by decide, by decide, .inl rfl⟩
  | bare name =>
    obtain ⟨c, cs, he, h⟩ := hword [] hp.1
    rw [List.append_nil] at he
    exact ⟨c, cs, he, h.1, h.2.1, .inr h.2.2⟩
  | unquoted | quoted =>
    obtain ⟨c, cs, he, h⟩ := hword _ hp.1
    exact ⟨c, cs, he, h.1, h.2.1, .inr h.2.2⟩

/-- No piece begins with an equals sign, behind blanks. -/
theorem not_spells_equals {blanks : List Char} (hblanks : AllSpace blanks) :
    ¬ Spells pieces (blanks ++ '=' :: rest) := by
  induction pieces generalizing blanks with
  | nil => exact fun h => by simp [Spells] at h
  | cons p ps ih =>
    rintro ⟨rest', hcs, hp, hrest⟩
    by_cases hspace : p.item = .space
    · obtain ⟨bs, rfl⟩ : ∃ bs, p = .space bs := by
        cases p <;> first | exact ⟨_, rfl⟩ | cases hspace
      rcases Text.cut_cases hcs with ⟨more, rfl, rfl⟩ | ⟨d, hd, rfl, hequals⟩
      · exact ih (fun c hc => hblanks c (by simp [hc])) hrest
      · obtain ⟨c, d, rfl⟩ := List.exists_cons_of_ne_nil hd
        obtain ⟨rfl, -⟩ := List.cons.inj hequals
        have := hp.2 '=' (by simp)
        revert this
        decide
    · obtain ⟨c, cs, hchars, hc, hequals, -⟩ := exists_first hp hspace
      rw [hchars] at hcs
      cases blanks with
      | nil => exact hequals (List.cons.inj hcs).1.symm
      | cons b blanks =>
        rw [← (List.cons.inj hcs).1, hblanks b List.mem_cons_self] at hc
        cases hc

/-- The value behind an equals sign is read back. -/
theorem read_value {name before after cs : List Char} (value : List Char)
    (hp : IsWord name ∧ AllSpace before ∧ AllSpace after)
    (hcs : cs = name ++ (before ++ '=' :: (after ++ value)))
    (hvalue : ¬ Starts isTagSpace value) : read cs = readValue name before after value := by
  obtain ⟨hname, hbefore, hafter⟩ := hp
  have hequals : ¬ Starts isTagSpace ('=' :: (after ++ value)) := not_starts_cons (by decide)
  have hword : ¬ Starts isWordChar (before ++ '=' :: (after ++ value)) := by
    cases before with
    | nil => exact not_starts_cons (by decide)
    | cons b before =>
      exact not_starts_cons (by simp [isWordChar, hbefore b List.mem_cons_self])
  have hfits : (TagPiece.bare name).Fits (before ++ '=' :: (after ++ value)) := ⟨hname, hword⟩
  obtain ⟨c, cs', hfirst, hc, -, hslash⟩ := exists_first hfits (by simp [item])
  obtain ⟨htake, hdrop⟩ := span_of_not_starts hname.2 hword
  obtain ⟨htake', hdrop'⟩ := span_of_not_starts hbefore hequals
  obtain ⟨htake'', hdrop''⟩ := span_of_not_starts hafter hvalue
  have hfirst : name = c :: cs' := hfirst
  have hcons : cs = c :: (cs' ++ (before ++ '=' :: (after ++ value))) := by
    rw [hcs, hfirst, List.cons_append]
  rw [← hcs] at htake hdrop
  rw [hcons] at htake hdrop ⊢
  rw [read, if_neg (by simp [hc]), if_neg (hslash.resolve_left (by simp [item]))]
  simp only [htake, hdrop, htake', hdrop', htake'', hdrop'']

/-- A piece that names an attribute is read back. -/
theorem read_chars (hp : p.Fits rest) (hrest : Spells pieces rest) (hspace : p.item ≠ .space)
    (hslash : p.item ≠ .slash) : read (p.chars ++ rest) = some (p, rest) := by
  cases p with
  | space => exact absurd rfl hspace
  | slash => exact absurd rfl hslash
  | bare name =>
    obtain ⟨c, cs, hchars, hc, -, hnot⟩ := exists_first hp hspace
    obtain ⟨hname, hstop⟩ := hp
    obtain ⟨htake, hdrop⟩ := span_of_not_starts hname.2 hstop
    have hchars : name = c :: cs := hchars
    rw [chars, hchars, List.cons_append, read, if_neg (by simp [hc]),
      if_neg (hnot.resolve_left hslash)]
    rw [hchars, List.cons_append] at htake hdrop
    simp only [htake, hdrop]
    split
    · rename_i more hmore
      have hblanks := List.takeWhile_append_dropWhile (p := isTagSpace) (l := rest)
      rw [hmore] at hblanks
      rw [← hblanks] at hrest
      exact absurd hrest (not_spells_equals fun c hc => List.mem_takeWhile_imp hc)
    · rfl
  | unquoted name before after value =>
    obtain ⟨hname, hbefore, hafter, hne, hvalue, hstop⟩ := hp
    obtain ⟨c, value, rfl⟩ := List.exists_cons_of_ne_nil hne
    have hc := hvalue c List.mem_cons_self
    rw [read_value (c :: value ++ rest) ⟨hname, hbefore, hafter⟩
      (by simp [chars]) (not_starts_cons (isTagSpace_of_unquoted hc))]
    have hend : ¬ Starts isUnquotedChar rest := by
      rintro ⟨d, more, rfl, hd⟩
      rcases hstop with hnil | ⟨e, more', he, hspace'⟩
      · cases hnil
      · obtain ⟨rfl, -⟩ := List.cons.inj he
        rw [isTagSpace_of_unquoted hd] at hspace'
        cases hspace'
    obtain ⟨htake, hdrop⟩ := span_of_not_starts hvalue hend
    rw [List.cons_append] at htake hdrop ⊢
    rw [readValue, if_neg (not_quote_of_unquoted hc), htake, hdrop]
  | quoted name before after quote value =>
    obtain ⟨hname, hbefore, hafter, hquote, hnot⟩ := hp
    rw [read_value (quote :: (value ++ quote :: rest)) ⟨hname, hbefore, hafter⟩
      (by simp [chars]) (not_starts_cons (by rcases hquote with rfl | rfl <;> decide)),
      readValue, if_pos hquote, Text.breakOn_singleton hnot, Option.map_some]

theorem readAll_blanks (start : Nat) {blanks : List Char} (h : AllSpace blanks) :
    readAll start (blanks ++ rest) = readAll (start + byteSize blanks) rest := by
  induction blanks generalizing start with
  | nil => rfl
  | cons b blanks ih =>
    rw [List.cons_append, readAll, read, if_pos (h b List.mem_cons_self)]
    simp only [List.length_cons, Nat.lt_add_one, if_true]
    rw [ih _ fun c hc => h c (List.mem_cons_of_mem _ hc)]
    simp [written, item, chars, Nat.add_assoc]

/-- The reader finds the attributes that pieces spell. -/
theorem readAll_eq (h : Spells pieces cs) : readAll start cs = writtenAll start pieces := by
  induction pieces generalizing start cs with
  | nil =>
    obtain rfl : cs = [] := h
    rw [readAll]
    rfl
  | cons p ps ih =>
    obtain ⟨rest, rfl, hp, hrest⟩ := h
    rw [writtenAll, ← ih hrest]
    by_cases hspace : p.item = .space
    · obtain ⟨bs, rfl⟩ : ∃ bs, p = .space bs := by
        cases p <;> first | exact ⟨_, rfl⟩ | cases hspace
      exact readAll_blanks start hp.2
    · have hread : read (p.chars ++ rest) = some (p, rest) := by
        by_cases hslash : p.item = .slash
        · obtain rfl : p = .slash := by
            cases p <;> first | rfl | cases hslash
          rfl
        · exact read_chars hp hrest hspace hslash
      have hpos := List.length_pos_of_ne_nil hp.chars_ne_nil
      rw [readAll, hread]
      simp [hpos]

end TagPiece

/-- The characters of a text from one byte to another. -/
def Span.of : List Char → Span → List Char
  | [], _ => []
  | c :: cs, ⟨start, stop⟩ =>
    if start = 0 then
      if stop = 0 then [] else c :: Span.of cs ⟨0, stop - c.utf8Size⟩
    else Span.of cs ⟨start - c.utf8Size, stop - c.utf8Size⟩

open Text (byteSize_nil byteSize_cons)

theorem Span.of_append (before inside after : List Char) :
    Span.of (before ++ (inside ++ after)) ⟨byteSize before, byteSize before + byteSize inside⟩ =
      inside := by
  induction before with
  | nil =>
    rw [List.nil_append, byteSize_nil, Nat.zero_add]
    induction inside with
    | nil => cases after <;> rfl
    | cons c inside ih =>
      have := c.utf8Size_pos
      rw [List.cons_append, Span.of, if_pos rfl, byteSize_cons, if_neg (by omega),
        Nat.add_sub_cancel_left, ih]
  | cons c before ih =>
    have := c.utf8Size_pos
    rw [List.cons_append, Span.of, byteSize_cons, if_neg (by omega), Nat.add_sub_cancel_left,
      show c.utf8Size + byteSize before + byteSize inside - c.utf8Size =
        byteSize before + byteSize inside by omega, ih]

/-- The attributes in a start tag of a text, with the places of their values. -/
def writtenAt (text : List Char) (span : Span) : List (Attribute × Option Span) :=
  let inside := (Span.of text span).tail.dropLast
  let name := inside.takeWhile isWordChar
  TagPiece.readAll (span.start + byteSize ('<' :: name)) (inside.dropWhile isWordChar)

theorem StartTag.SpeltBy.writtenAt_eq {text name : List Char} {tag : StartTag} {span : Span}
    {pieces : List TagPiece} (h : tag.SpeltBy text span name pieces) :
    writtenAt text span = TagPiece.writtenAll (span.start + byteSize ('<' :: name)) pieces := by
  obtain ⟨before, interior, after, rfl, rfl, hname, hstop, hpieces, -⟩ := h
  obtain ⟨htake, hdrop⟩ := span_of_not_starts hname.2 hstop
  have hinside : (Span.of (before ++ ('<' :: (name ++ interior ++ ['>']) ++ after))
      ⟨byteSize before, byteSize before +
        byteSize ('<' :: (name ++ interior ++ ['>']))⟩).tail.dropLast = name ++ interior := by
    rw [Span.of_append, List.tail_cons, List.dropLast_concat]
  rw [writtenAt, hinside, htake, hdrop, TagPiece.readAll_eq hpieces]

theorem StartTag.SpeltBy.map_fst_writtenAt {text name : List Char} {tag : StartTag} {span : Span}
    {pieces : List TagPiece} (h : tag.SpeltBy text span name pieces) :
    (writtenAt text span).map Prod.fst = tag.attributes := by
  rw [h.writtenAt_eq, TagPiece.map_fst_writtenAll]
  obtain ⟨-, -, -, -, -, -, -, -, rfl⟩ := h
  rfl

/-- An attribute with its name as it is in the tree: foreign content keeps the case. -/
def Builder.named (foreign : Bool) (a : Attribute) : Attribute :=
  if foreign then a else { a with name := a.name.toLower }

theorem Builder.sameName_named (foreign : Bool) (a : Attribute) :
    Text.sameName a.name (named foreign a).name = true := by
  cases foreign with
  | true => exact Text.sameName_iff.2 rfl
  | false =>
    rw [Text.sameName_iff]
    simp [named, Text.toList_toLower]

section Firsts

variable {β : Type}

/-- The attributes whose names are not among those of attributes in front. -/
def firsts (seen : List String) : List (Attribute × β) → List (Attribute × β)
  | [] => []
  | x :: xs =>
    if x.1.name ∈ seen then firsts seen xs else x :: firsts (seen ++ [x.1.name]) xs

theorem map_fst_firsts (written : List (Attribute × β)) :
    (firsts [] written).map Prod.fst = Builder.distinct (written.map Prod.fst) := by
  have hall (seen : List Attribute) :
      (written.map Prod.fst).foldl (fun seen a =>
        if seen.any (·.name == a.name) then seen else seen ++ [a]) seen =
        seen ++ (firsts (seen.map (·.name)) written).map Prod.fst := by
    induction written generalizing seen with
    | nil => simp [firsts]
    | cons x xs ih =>
      have hseen : seen.any (·.name == x.1.name) = true ↔ x.1.name ∈ seen.map (·.name) := by
        rw [List.any_eq_true, List.mem_map]
        exact exists_congr fun b => and_congr_right fun _ => beq_iff_eq
      rw [List.map_cons, List.foldl_cons, firsts]
      by_cases hx : x.1.name ∈ seen.map (·.name)
      · rw [if_pos (hseen.2 hx), if_pos hx, ih]
      · rw [if_neg (mt hseen.1 hx), if_neg hx, ih, List.map_append, List.map_cons, List.map_nil]
        simp
  exact (hall []).symm

theorem firsts_map {γ : Type} (f : β → γ) (seen : List String) (written : List (Attribute × β)) :
    firsts seen (written.map fun x => (x.1, f x.2)) =
      (firsts seen written).map fun x => (x.1, f x.2) := by
  induction written generalizing seen with
  | nil => rfl
  | cons x xs ih =>
    rw [List.map_cons, firsts, firsts]
    by_cases hx : x.1.name ∈ seen
    · rw [if_pos hx, if_pos hx, ih]
    · rw [if_neg hx, if_neg hx, ih, List.map_cons]

theorem mem_firsts {seen : List String} {written : List (Attribute × β)} {x : Attribute × β}
    (hx : x ∈ firsts seen written) : ∃ front back, written = front ++ x :: back ∧
      x.1.name ∉ seen ∧ ∀ y ∈ front, y.1.name ≠ x.1.name := by
  induction written generalizing seen with
  | nil => cases hx
  | cons y ys ih =>
    rw [firsts] at hx
    by_cases hy : y.1.name ∈ seen
    · rw [if_pos hy] at hx
      obtain ⟨front, back, rfl, hseen, hfront⟩ := ih hx
      refine ⟨y :: front, back, rfl, hseen, List.forall_mem_cons.2 ⟨?_, hfront⟩⟩
      rintro he
      exact hseen (he ▸ hy)
    · rw [if_neg hy] at hx
      rcases List.mem_cons.1 hx with rfl | hx
      · exact ⟨[], ys, rfl, hy, nofun⟩
      · obtain ⟨front, back, rfl, hseen, hfront⟩ := ih hx
        rw [List.mem_append, not_or] at hseen
        refine ⟨y :: front, back, rfl, hseen.1, List.forall_mem_cons.2 ⟨?_, hfront⟩⟩
        rintro he
        exact hseen.2 (he ▸ List.mem_singleton_self _)

end Firsts

/-- The attributes that an element gets of those written in its start tag, with the places of their
values. -/
def keptOf (foreign : Bool) (written : List (Attribute × Option Span)) :
    List (Attribute × Option Span) :=
  firsts [] (written.map fun x => (Builder.named foreign x.1, x.2))

theorem exists_of_mem_keptOf {foreign : Bool} {written : List (Attribute × Option Span)}
    {x : Attribute × Option Span} (hx : x ∈ keptOf foreign written) : ∃ a, (a, x.2) ∈ written := by
  obtain ⟨front, back, hsplit, -⟩ := mem_firsts hx
  have hmem : x ∈ written.map fun x => (Builder.named foreign x.1, x.2) := by simp [hsplit]
  obtain ⟨⟨a, place⟩, ha, rfl⟩ := List.mem_map.1 hmem
  exact ⟨a, ha⟩

theorem map_fst_keptOf {text name : List Char} {tag : StartTag} {span : Span}
    {pieces : List TagPiece} (h : tag.SpeltBy text span name pieces) (foreign : Bool) :
    (keptOf foreign (writtenAt text span)).map Prod.fst = (Builder.elementOf tag foreign).2 := by
  rw [keptOf, map_fst_firsts, List.map_map, Builder.elementOf, ← h.map_fst_writtenAt, List.map_map]
  rfl

end Markup

end LiveMarkup
