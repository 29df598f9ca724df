import LiveMarkup.Markup.DocumentStart
import LiveMarkup.Proofs.Markup.Decoding
import LiveMarkup.Proofs.Markup.Landmarks
import LiveMarkup.Proofs.Markup.Letters
import LiveMarkup.Proofs.Markup.Scanning

set_option autoImplicit false

/-!
Documents are told from fragments by a look at how markup starts, and the parser agrees. What is
skipped gives comments and blank texts right below the root; then comes the doctype or the `html`
element; and what is right below the root stays there, in front of what is read later.
-/

namespace LiveMarkup

namespace NodeKind

/-- What may stand in front of a document: a comment, or a text of white space. -/
def isFiller : NodeKind → Bool
  | .comment _ => true
  | .text content => content.toList.all Text.isBlank
  | _ => false

/-- What a document begins with. -/
def OpensDocument : NodeKind → Prop
  | .doctype _ => True
  | .element name _ => name = "html"
  | _ => False

theorem OpensDocument.not_filler {kind : NodeKind} (h : kind.OpensDocument) :
    kind.isFiller = false := by
  cases kind with
  | text _ | comment _ => cases h
  | _ => rfl

theorem OpensDocument.not_text {kind : NodeKind} (h : kind.OpensDocument) :
    kind.isText = false := by
  cases kind with
  | text _ => cases h
  | _ => rfl

/-- Siblings that are added to: one more at the end, or more of a text that is the last. -/
inductive Continues : List NodeKind → List NodeKind → Prop
  | same {kinds : List NodeKind} : Continues kinds kinds
  | node {kinds : List NodeKind} (kind : NodeKind) : Continues kinds (kinds ++ [kind])
  | text {front : List NodeKind} {before after : String} :
    Continues (front ++ [.text before]) (front ++ [.text after])

theorem Continues.of_eq {kinds kinds' : List NodeKind} (h : kinds = kinds') :
    Continues kinds kinds' :=
  h ▸ .same

/-- Siblings up to one that is no text stay as they are. -/
theorem Continues.prefix_kept {kinds kinds' front : List NodeKind} {kind : NodeKind}
    (h : Continues kinds kinds') (hk : kind.isText = false) (hp : front ++ [kind] <+: kinds) :
    front ++ [kind] <+: kinds' := by
  cases h with
  | same => exact hp
  | node more => exact hp.trans (List.prefix_append _ _)
  | @text others before after =>
    rcases List.prefix_concat_iff.1 hp with he | hp
    · obtain ⟨-, hlast⟩ := List.append_inj' he rfl
      rw [(List.cons.inj hlast).1] at hk
      cases hk
    · exact hp.trans (List.prefix_append _ _)

end NodeKind

namespace Branch

variable {α : Type} {inner inner' : List (Branch α)} {path : List (α × List (Branch α))}

/-- What is at the top does not depend on what is below it. -/
theorem map_label_enclose (h : path = [] → inner.map label = inner'.map label) :
    (enclose inner path).map label = (enclose inner' path).map label := by
  induction path generalizing inner inner' with
  | nil => exact h rfl
  | cons s path ih => exact ih fun _ => by simp [label]

end Branch

namespace Markup

open Branch (enclose)
open LiveMarkup.Text

namespace Draft

variable {d : Draft}

/-- The kinds right below the root. -/
def top (d : Draft) : List NodeKind := d.branches.map Branch.label

/-- What an open element holds is not right below the root. -/
theorem top_inside (root : NodeKind) (inner inner' : List (Branch NodeKind)) (f : Frame)
    (fs : List Frame) : top ⟨root, inner, f :: fs⟩ = top ⟨root, inner', f :: fs⟩ :=
  Branch.map_label_enclose nofun

theorem top_put (h : d.frames = []) (kind : NodeKind) : (d.put kind).top = d.top ++ [kind] := by
  simp [top, branches, put, h, enclose, Branch.label]

theorem continues_put (d : Draft) (kind : NodeKind) : NodeKind.Continues d.top (d.put kind).top := by
  obtain ⟨root, inner, _ | ⟨f, fs⟩⟩ := d
  · rw [top_put rfl]
    exact .node kind
  · exact .of_eq (top_inside root inner _ f fs)

theorem continues_addText (d : Draft) (content : String) :
    NodeKind.Continues d.top (d.addText content).top := by
  unfold addText
  split
  · exact .same
  split
  · rename_i before below hlast
    obtain ⟨front, hfront⟩ := List.getLast?_eq_some_iff.1 hlast
    obtain ⟨root, inner, _ | ⟨f, fs⟩⟩ := d
    · obtain rfl : inner = front ++ [.node (.text before) below] := hfront
      simp only [top, branches, enclose, List.map_nil, List.dropLast_concat, List.map_append,
        List.map_cons, Branch.label]
      exact .text
    · exact .of_eq (top_inside root inner _ f fs)
  · exact d.continues_put _

/-- Tokens add to what is right below the root. -/
theorem continues_add (d : Draft) (token : Token) : NodeKind.Continues d.top (d.add token).top := by
  cases token with
  | text content | rawText element content => exact d.continues_addText content
  | comment content => exact d.continues_put _
  | doctype name =>
    rw [add]
    split
    · exact d.continues_put _
    · exact .same
  | startTag tag =>
    rw [add, top, top, branches_startElement]
    exact d.continues_put _
  | endTag name =>
    rw [add, top, top, branches_endElement]
    exact .same

theorem prefix_top_foldl {front : List NodeKind} {kind : NodeKind} (hk : kind.isText = false)
    (tokens : List Token) (h : front ++ [kind] <+: d.top) :
    front ++ [kind] <+: (tokens.foldl add d).top := by
  induction tokens generalizing d with
  | nil => exact h
  | cons t ts ih => exact ih ((d.continues_add t).prefix_kept hk h)

end Draft

/-- What gives the nodes in front of a document. -/
def Token.isFiller : Token → Bool
  | .comment _ => true
  | .text content => content.toList.all isBlank
  | _ => false

/-- What gives the node that a document begins with. -/
def Token.OpensDocument : Token → Prop
  | .doctype _ => True
  | .startTag tag => tag.name.toLower = "html"
  | _ => False

/-- The draft of what stands in front of a document. -/
structure Draft.IsPreamble (d : Draft) : Prop where
  root : d.root = .document
  frames : d.frames = []
  fillers : ∀ kind ∈ d.inner.map Branch.label, kind.isFiller = true

namespace Draft.IsPreamble

variable {d : Draft} {token : Token}

theorem put (h : d.IsPreamble) {kind : NodeKind} (hk : kind.isFiller = true) :
    (d.put kind).IsPreamble := by
  refine ⟨h.root, h.frames, ?_⟩
  rw [Draft.put, List.map_append, List.forall_mem_append]
  exact ⟨h.fillers, by simpa [Branch.label] using hk⟩

theorem addText (h : d.IsPreamble) {content : String}
    (hc : content.toList.all isBlank = true) : (d.addText content).IsPreamble := by
  unfold Draft.addText
  split
  · exact h
  split
  · rename_i before below hlast
    obtain ⟨front, hfront⟩ := List.getLast?_eq_some_iff.1 hlast
    have hold := h.fillers
    rw [hfront, List.map_append, List.forall_mem_append] at hold
    have hbefore : before.toList.all isBlank = true := hold.2 _ List.mem_cons_self
    refine ⟨h.root, h.frames, ?_⟩
    rw [hfront, List.dropLast_concat, List.map_append, List.forall_mem_append]
    refine ⟨hold.1, ?_⟩
    simp [Branch.label, NodeKind.isFiller, hbefore, hc]
  · exact h.put hc

theorem add (h : d.IsPreamble) (ht : token.isFiller = true) : (d.add token).IsPreamble := by
  cases token with
  | text content => exact h.addText ht
  | comment content => exact h.put rfl
  | _ => cases ht

theorem foldl {tokens : List Token} (h : d.IsPreamble) (ht : ∀ t ∈ tokens, t.isFiller = true) :
    (tokens.foldl Draft.add d).IsPreamble := by
  induction tokens generalizing d with
  | nil => exact h
  | cons t ts ih =>
    exact ih (h.add (ht t List.mem_cons_self)) fun t' ht' => ht t' (List.mem_cons_of_mem _ ht')

theorem top_eq (h : d.IsPreamble) : d.top = d.inner.map Branch.label := by
  rw [Draft.top, Draft.branches, h.frames]
  rfl

/-- The document comes right behind what stands in front of it. -/
theorem opens (h : d.IsPreamble) (ht : token.OpensDocument) :
    ∃ kind, kind.OpensDocument ∧ (d.add token).top = d.inner.map Branch.label ++ [kind] := by
  have htop (kind : NodeKind) : (d.put kind).top = d.inner.map Branch.label ++ [kind] := by
    rw [Draft.top_put h.frames, h.top_eq]
  cases token with
  | doctype name =>
    have hroot : (d.frames.isEmpty && d.root.isDocument) = true := by
      rw [h.frames, h.root]
      rfl
    rw [Draft.add, if_pos hroot]
    exact ⟨.doctype name, trivial, htop _⟩
  | startTag tag =>
    have hforeign : (d.foreign || isForeignRoot tag.name) = false := by
      rw [Draft.foreign, h.frames, isForeignRoot, show tag.name.toLower = "html" from ht]
      decide
    refine ⟨tag.element false, ?_, ?_⟩
    · rw [Token.OpensDocument] at ht
      simp [StartTag.element, Builder.elementOf, NodeKind.OpensDocument, ht]
    · rw [Draft.add, Draft.top, Draft.branches_startElement, hforeign]
      exact htop _
  | _ => cases ht

end Draft.IsPreamble

/-- Scanning markup outside foreign content gives fillers first, and then what it gives from `rest`
on. -/
def Skips (cs rest : List Char) : Prop :=
  ∀ start, ∃ fillers stop, (∀ t ∈ fillers, Token.isFiller t = true) ∧
    (Lexing.scan start 0 cs).errors = (Lexing.scan stop 0 rest).errors ∧
    (Lexing.scan start 0 cs).tokens.map Prod.fst =
      fillers ++ (Lexing.scan stop 0 rest).tokens.map Prod.fst

namespace Skips

variable {cs cs' rest : List Char}

theorem refl (cs : List Char) : Skips cs cs := fun start => ⟨[], start, nofun, rfl, rfl⟩

theorem trans (h : Skips cs cs') (h' : Skips cs' rest) : Skips cs rest := by
  intro start
  obtain ⟨fillers, middle, hfillers, herrors, htokens⟩ := h start
  obtain ⟨fillers', stop, hfillers', herrors', htokens'⟩ := h' middle
  refine ⟨fillers ++ fillers', stop, List.forall_mem_append.2 ⟨hfillers, hfillers'⟩,
    herrors.trans herrors', ?_⟩
  rw [htokens, htokens', List.append_assoc]

theorem token {c : Char} {lexeme : Lexeme} {t : Token}
    (hnext : Lexeme.next c cs = (lexeme, rest)) (ht : lexeme.token? = some t)
    (hf : t.isFiller = true) : Skips (c :: cs) rest := by
  intro start
  rw [Lexing.scan_of_token? hnext ht]
  exact ⟨[t], _, by simpa using hf, rfl, rfl⟩

theorem blanks (blanks rest : List Char) (hb : ∀ c ∈ blanks, isBlank c = true) :
    Skips (blanks ++ '<' :: rest) ('<' :: rest) := by
  cases blanks with
  | nil => exact refl _
  | cons c blanks =>
    have hne {c d : Char} (hd : isBlank d = false) (hc : isBlank c = true) : c ≠ d := by
      rintro rfl
      rw [hc] at hd
      cases hd
    have hplain : ∀ c ∈ blanks, (c != '<') = true := fun c hc =>
      bne_iff_ne.2 (hne (by decide) (hb c (List.mem_cons_of_mem _ hc)))
    have hopener : ¬ Starts (· != '<') ('<' :: rest) := by
      rintro ⟨_, _, he, hc⟩
      obtain ⟨rfl, -⟩ := List.cons.inj he
      cases hc
    have hspan := span_of_not_starts hplain hopener
    have hnext : Lexeme.next c (blanks ++ '<' :: rest) = (.text (c :: blanks), '<' :: rest) := by
      rw [Lexeme.next, if_neg (hne (by decide) (hb c List.mem_cons_self)), hspan.1, hspan.2]
    refine token hnext rfl ?_
    have hreference : '&' ∉ c :: blanks := fun hm => hne (by decide) (hb _ hm) rfl
    have hdecode := CharacterReference.decodeChars_append (q := []) hreference
    rw [List.append_nil] at hdecode
    rw [Token.isFiller, CharacterReference.toList_decode, String.toList_ofList, hdecode,
      List.all_eq_true]
    simpa [CharacterReference.decodeChars] using hb

theorem comment {inside content : List Char}
    (h : breakOn ['-', '-', '>'] inside = some (content, rest)) :
    Skips ('<' :: '!' :: '-' :: '-' :: inside) rest := by
  have hnext : Lexeme.next '<' ('!' :: '-' :: '-' :: inside) = (.comment content, rest) := by
    rw [Lexeme.next, if_pos rfl, Lexeme.afterOpen, h]
  exact token hnext rfl rfl

theorem trimmed {s : List Char} (h : trimStart s = '<' :: rest) : Skips s ('<' :: rest) := by
  have hs : s.takeWhile isBlank ++ '<' :: rest = s := by
    rw [← h, trimStart, List.takeWhile_append_dropWhile]
  have hb := blanks (s.takeWhile isBlank) rest fun c hc => List.mem_takeWhile_imp hc
  rwa [hs] at hb

/-- What the look at the start skips gives only fillers. -/
theorem of_skipComments (h : skipComments cs = some ('<' :: rest)) : Skips cs ('<' :: rest) := by
  fun_induction skipComments cs with
  | case1 s inside hs content behind hbreak ih =>
    exact (trimmed hs).trans ((comment hbreak).trans (ih h))
  | case2 => cases h
  | case3 s hno => exact trimmed (Option.some.inj h)

end Skips

theorem startsWithLetters_iff {letters s : List Char} :
    startsWithLetters letters s = true ↔
      ∃ word tail, s = word ++ tail ∧ word.map Char.toLower = letters.map Char.toLower := by
  rw [startsWithLetters, sameLetters, beq_iff_eq]
  constructor
  · exact fun h => ⟨_, _, (List.take_append_drop letters.length s).symm, h⟩
  · rintro ⟨word, tail, rfl, hword⟩
    have hlength : letters.length = word.length := by
      simpa using (congrArg List.length hword).symm
    rwa [hlength, List.take_left]

/-- What is no letter is compared as it stands. -/
theorem cons_of_map_toLower {word letters : List Char} {c : Char}
    (h : word.map Char.toLower = (c :: letters).map Char.toLower) (hc : c.toLower.isLower = false) :
    ∃ more, word = c :: more ∧ more.map Char.toLower = letters.map Char.toLower := by
  obtain ⟨d, more, rfl, hd, hmore⟩ := List.map_eq_cons_iff.1 h
  have hsame : c.toLower = c := (toLower_or_isLower c).resolve_right (by simp [hc])
  rw [hsame] at hd hc
  exact ⟨more, by rw [eq_of_toLower_eq hd hc], hmore⟩

/-- A declaration that reads as a doctype gives one. -/
theorem opens_doctype {word tail : List Char} {start : Nat}
    (hword : word.map Char.toLower = ['d', 'o', 'c', 't', 'y', 'p', 'e'])
    (h : (Lexing.scan start 0 ('<' :: '!' :: (word ++ tail))).errors = []) :
    ∃ t more, (Lexing.scan start 0 ('<' :: '!' :: (word ++ tail))).tokens.map Prod.fst = t :: more ∧
      t.OpensDocument := by
  have hnot (c : Char) (hc : c.toLower ∉ ['d', 'o', 'c', 't', 'y', 'p', 'e']) : c ∉ word :=
    fun hm => hc (hword ▸ List.mem_map_of_mem hm)
  have hdash : ∀ s, word ++ tail = '-' :: '-' :: s → False := by
    intro s he
    obtain ⟨c, word, rfl, -⟩ := List.map_eq_cons_iff.1 hword
    exact hnot '-' (by decide) ((List.cons.inj he).1 ▸ List.mem_cons_self)
  cases hbreak : breakOn ['>'] (word ++ tail) with
  | none =>
    have hnext : Lexeme.next '<' ('!' :: (word ++ tail)) =
        (.unterminated .declaration, word ++ tail) := by
      rw [Lexeme.next, if_pos rfl, Lexeme.afterOpen, hbreak]
      exact hdash
    rw [Lexing.scan_unterminated hnext] at h
    cases h
  | some found =>
    obtain ⟨body, rest⟩ := found
    have hbody : body.take 7 = word := by
      obtain ⟨hsplit, -⟩ := split_at_close hbreak
      have hlength : word.length = 7 := by simpa using congrArg List.length hword
      rw [List.append_assoc] at hsplit
      rcases List.append_eq_append_iff.1 hsplit with ⟨more, rfl, -⟩ | ⟨more, rfl, hmore⟩
      · rw [← hlength, List.take_left]
      · cases more with
        | nil => simp_all
        | cons c more =>
          obtain ⟨rfl, -⟩ := List.cons.inj hmore
          exact absurd (by simp) (hnot '>' (by decide))
    have hnext : Lexeme.next '<' ('!' :: (word ++ tail)) =
        (.doctype (trim (body.drop 7)), rest) := by
      rw [Lexeme.next, if_pos rfl, Lexeme.afterOpen, hbreak]
      · have hsame : sameLetters (body.take 7) ['d', 'o', 'c', 't', 'y', 'p', 'e'] = true := by
          rw [hbody, sameLetters, hword]
          decide
        simp only [Lexeme.ofDeclaration, hsame, if_true]
      · exact hdash
    rw [Lexing.scan_of_token? hnext rfl]
    exact ⟨_, _, rfl, trivial⟩

theorem not_starts_of_endsName {tail : List Char} (h : endsName tail = true) :
    ¬ Starts isWordChar tail := by
  rintro ⟨c, cs, rfl, hc⟩
  simp only [endsName, Bool.or_eq_true, beq_iff_eq] at h
  rcases h with (hspace | rfl) | rfl
  · simp [isWordChar, hspace] at hc
  · cases hc
  · cases hc

/-- What is written first opens a document if it reads as the start of an `html` tag. -/
theorem Token.Written.opens {t : Token} {u rest word tail : List Char} (h : t.Written u rest)
    (hu : u ++ rest = '<' :: (word ++ tail)) (hword : word.map Char.toLower = ['h', 't', 'm', 'l'])
    (hend : endsName tail = true) : t.OpensDocument := by
  have hnot {c : Char} (hc : c.toLower ∉ ['h', 't', 'm', 'l']) : c ∉ word :=
    fun hm => hc (hword ▸ List.mem_map_of_mem hm)
  obtain ⟨first, others, he, hfirst, -⟩ := List.map_eq_cons_iff.1 hword
  have hsecond {c : Char} {cs : List Char} (hu : '<' :: c :: cs = '<' :: (word ++ tail)) :
      c ∈ word := by
    rw [he] at hu ⊢
    exact (List.cons.inj (List.cons.inj hu).2).1 ▸ List.mem_cons_self
  cases h with
  | text hne hplain =>
    obtain ⟨c, u, rfl⟩ := List.exists_cons_of_ne_nil hne
    obtain ⟨rfl, hrest⟩ := List.cons.inj hu
    rcases hplain with hplain | ⟨hone, hopens⟩
    · exact absurd List.mem_cons_self hplain
    · have halpha : first.isAlpha = true := isAlpha_of_isLower_toLower (by rw [hfirst]; decide)
      obtain rfl : u = [] := (List.cons.inj hone).2
      rw [he] at hrest
      exact absurd (.inl ⟨first, others ++ tail, hrest, by simp [halpha]⟩) hopens
  | comment => exact absurd (hsecond hu) (hnot (by decide))
  | declaration _ hmark =>
    rcases hmark with ⟨rfl, -⟩ | rfl <;> exact absurd (hsecond hu) (hnot (by decide))
  | endTag => exact absurd (hsecond hu) (hnot (by decide))
  | @startTag name interior _ pieces hname halpha hstop hspells =>
    -- Both are the longest run of the characters that names are made of.
    have hclose : ¬ Starts isWordChar (interior ++ '>' :: rest) := by
      rintro ⟨c, cs, hc, hchar⟩
      cases interior with
      | nil =>
        obtain ⟨rfl, -⟩ := List.cons.inj hc
        cases hchar
      | cons d interior =>
        obtain ⟨rfl, -⟩ := List.cons.inj hc
        exact hstop ⟨d, interior, rfl, hchar⟩
    have hchars : ∀ c ∈ word, isWordChar c = true := by
      intro c hc
      simp only [isWordChar, isTagSpace, Bool.not_eq_true', Bool.or_eq_false_iff,
        beq_eq_false_iff_ne]
      refine ⟨⟨⟨⟨⟨⟨⟨⟨⟨?_, ?_⟩, ?_⟩, ?_⟩, ?_⟩, ?_⟩, ?_⟩, ?_⟩, ?_⟩, ?_⟩ <;> rintro rfl <;>
        exact hnot (by decide) hc
    have hrun : name = word := by
      rw [← (span_of_not_starts hname.2 hclose).1,
        ← (span_of_not_starts hchars (not_starts_of_endsName hend)).1]
      congr 1
      simpa using (List.cons.inj hu).2
    rw [Token.OpensDocument, hrun, StartTag.ofPieces, toLower_ofList, hword]

theorem opens_html {word tail : List Char} {start : Nat}
    (hword : word.map Char.toLower = ['h', 't', 'm', 'l']) (hend : endsName tail = true)
    (h : (Lexing.scan start 0 ('<' :: (word ++ tail))).errors = []) :
    ∃ t more, (Lexing.scan start 0 ('<' :: (word ++ tail))).tokens.map Prod.fst = t :: more ∧
      t.OpensDocument := by
  have hlexed := Lexed.of_scan h
  generalize (Lexing.scan start 0 ('<' :: (word ++ tail))).tokens = tokens at hlexed
  generalize hcs : '<' :: (word ++ tail) = cs at hlexed
  cases hlexed with
  | done => cases hcs
  | token hwritten => exact ⟨_, _, rfl, hwritten.opens hcs.symm hword hend⟩
  | rawText hwritten => exact ⟨_, _, rfl, hwritten.opens hcs.symm hword hend⟩

/-- What is detected is skipped by the parser too, and then comes what opens a document. -/
theorem exists_of_looksLikeDocument {markup : String} (hlooks : looksLikeDocument markup = true)
    (h : (Lexing.ofMarkup markup).errors = []) :
    ∃ fillers t more, (Lexing.ofMarkup markup).tokens.map Prod.fst = fillers ++ t :: more ∧
      (∀ f ∈ fillers, Token.isFiller f = true) ∧ t.OpensDocument := by
  unfold looksLikeDocument at hlooks
  split at hlooks
  · cases hlooks
  rename_i s hskip
  obtain ⟨rest, rfl, hopens⟩ : ∃ rest, s = '<' :: rest ∧ ∀ start,
      (Lexing.scan start 0 ('<' :: rest)).errors = [] → ∃ t more,
        (Lexing.scan start 0 ('<' :: rest)).tokens.map Prod.fst = t :: more ∧ t.OpensDocument := by
    rw [Bool.or_eq_true, Bool.and_eq_true] at hlooks
    rcases hlooks with hdoctype | ⟨hhtml, hend⟩
    · obtain ⟨opener, tail, rfl, hopener⟩ := startsWithLetters_iff.1 hdoctype
      obtain ⟨marked, rfl, hmarked⟩ := cons_of_map_toLower hopener (by decide)
      obtain ⟨word, rfl, hword⟩ := cons_of_map_toLower hmarked (by decide)
      exact ⟨_, rfl, fun start => opens_doctype hword⟩
    · obtain ⟨opener, tail, rfl, hopener⟩ := startsWithLetters_iff.1 hhtml
      obtain ⟨word, rfl, hword⟩ := cons_of_map_toLower hopener (by decide)
      have hlength : ('<' :: word).length = 5 := by simpa using congrArg List.length hword
      rw [← hlength, List.drop_left] at hend
      exact ⟨_, rfl, fun start => opens_html hword hend⟩
  obtain ⟨fillers, stop, hfillers, herrors, htokens⟩ := Skips.of_skipComments hskip 0
  obtain ⟨t, more, hmore, ht⟩ := hopens stop (herrors.symm.trans h)
  rw [hmore] at htokens
  exact ⟨fillers, t, more, htokens, hfillers, ht⟩

theorem kinds_of_parseRooted {kind : NodeKind} {markup : String} {r : Rooted}
    (h : (parseRooted kind markup).outcome = .ok r) :
    (r.tree.children r.root).map r.tree.kind =
      (Draft.ofTokens kind ((Lexing.ofMarkup markup).tokens.map Prod.fst)).top := by
  obtain ⟨bs, hr, hcontent⟩ := parseRooted_ok h
  rw [hr.content, Draft.content] at hcontent
  injection hcontent with _ hbranches
  have hchildren : r.tree.children r.root = bs.map Branch.label := hr.holds.2.2.1
  rw [Draft.top, ← hbranches, hchildren, Branch.mapAll_eq_map, List.map_map, List.map_map]
  exact List.map_congr_left fun b _ => (Branch.label_map r.tree.kind b).symm

/-- Markup that looks like a document and parses as one begins, behind comments and blank texts, with
a doctype or an `html` element. -/
theorem parseDocument_opens {markup : String} {r : Rooted} (hlooks : looksLikeDocument markup = true)
    (h : (parseDocument markup).outcome = .ok r) :
    ∃ n, (r.tree.children r.root).find? (fun n => !(r.tree.kind n).isFiller) = some n ∧
      (r.tree.kind n).OpensDocument := by
  obtain ⟨fillers, t, more, htokens, hfillers, ht⟩ :=
    exists_of_looksLikeDocument hlooks (errors_of_parseRooted h)
  have hempty : Draft.IsPreamble { root := .document } := ⟨rfl, rfl, nofun⟩
  have hpreamble := hempty.foldl hfillers
  obtain ⟨kind, hkind, htop⟩ := hpreamble.opens ht
  obtain ⟨rest, hrest⟩ := Draft.prefix_top_foldl hkind.not_text more
    ⟨[], (List.append_nil _).trans htop.symm⟩
  have hkinds := kinds_of_parseRooted h
  rw [htokens, Draft.ofTokens, List.foldl_append, List.foldl_cons, ← hrest, List.append_assoc,
    List.singleton_append] at hkinds
  obtain ⟨skipped, others, hchildren, hskipped, hothers⟩ := List.map_eq_append_iff.1 hkinds
  obtain ⟨n, after, rfl, hn, -⟩ := List.map_eq_cons_iff.1 hothers
  have hnone : skipped.find? (fun n => !(r.tree.kind n).isFiller) = none := by
    refine List.find?_eq_none.2 fun m hm => ?_
    simpa using hpreamble.fillers _ (hskipped ▸ List.mem_map_of_mem hm)
  refine ⟨n, ?_, hn ▸ hkind⟩
  rw [hchildren, List.find?_append, hnone, Option.none_or, List.find?_cons_of_pos]
  simp [hn, hkind.not_filler]

/-- Comments and blanks, of which one is none of a tag, in front of a tag in capitals. -/
def shouted : String := "\n<!-- a --> \u2003<!--b--><HTML lang=en><p>x</HTML>y"

theorem shouted_opens : looksLikeDocument shouted = true ∧
    ∃ r, (parseDocument shouted).outcome = .ok r ∧
      ∃ n, (r.tree.children r.root).find? (fun n => !(r.tree.kind n).isFiller) = some n ∧
        (r.tree.kind n).OpensDocument := by
  have hlooks : looksLikeDocument shouted = true := by decide +kernel
  have hparses : (parseDocument shouted).outcome.isOk = true := by decide +kernel
  refine ⟨hlooks, ?_⟩
  cases h : (parseDocument shouted).outcome with
  | error errors =>
    rw [h] at hparses
    cases hparses
  | ok r => exact ⟨r, rfl, parseDocument_opens hlooks h⟩

end Markup

end LiveMarkup
