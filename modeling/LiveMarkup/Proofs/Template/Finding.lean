import LiveMarkup.Proofs.Template.RawContent

set_option autoImplicit false

/-!
The scanner of holes beside the tokens of the markup. Wherever the scanner is stopped, its state says
in which token the place is and, in a start tag, in which attribute.
-/

namespace LiveMarkup

open Markup
open Text (byteSize isTagSpace breakOn)

namespace Hole

namespace Walker

variable {w : Walker} {u rest : List Char} {foreign : Nat}

theorem toList_nodeMarker :
    nodeMarker.toList = '<' :: '!' :: '-' :: '-' :: (marker.toList ++ ['-', '-', '>']) := by
  decide

theorem breakOn_marker (rest : List Char) :
    breakOn ['-', '-', '>'] (marker.toList ++ ['-', '-', '>'] ++ rest) =
      some (marker.toList, rest) := by
  rw [show marker.toList = ['\x7b', '\x7b', 's', 's', 'r', '-', 'h', 'o', 'l', 'e',
    '\x7d', '\x7d'] by decide]
  simp [breakOn]

/-- A node marker is a comment. -/
theorem marker_of_prefix {t : Token} (ht : t.Written u rest)
    (h : nodeMarker.toList <+: u ++ rest) : t = .comment marker ∧ u = nodeMarker.toList := by
  obtain ⟨r, hr⟩ := h
  rw [toList_nodeMarker] at hr ⊢
  simp only [List.cons_append] at hr
  cases ht with
  | text hne hu =>
    obtain ⟨c, u, rfl⟩ := List.exists_cons_of_ne_nil hne
    obtain ⟨rfl, hrest⟩ := List.cons.inj hr
    rcases hu with hmem | ⟨hu, hopens⟩
    · exact absurd List.mem_cons_self hmem
    · obtain rfl := (List.cons.inj hu).2
      exact absurd (.inl ⟨'!', _, hrest.symm, rfl⟩) hopens
  | @comment content rest hbreak =>
    have hcontent : marker.toList ++ ['-', '-', '>'] ++ r = content ++ ['-', '-', '>'] ++ rest := by
      simpa using hr
    rw [← hcontent, breakOn_marker] at hbreak
    obtain ⟨rfl, -⟩ := Prod.mk.inj (Option.some.inj hbreak)
    exact ⟨by simp, rfl⟩
  | @declaration t mark body rest ht hmark hbody =>
    obtain ⟨rfl, hdashes⟩ := List.cons.inj (List.cons.inj hr).2
    rcases hmark with ⟨-, hnot⟩ | hmark
    · match body with
      | [] => cases (List.cons.inj hdashes).1
      | [_] => cases (List.cons.inj (List.cons.inj hdashes).2).1
      | _ :: _ :: body =>
        obtain ⟨rfl, htail⟩ := List.cons.inj hdashes
        obtain ⟨rfl, -⟩ := List.cons.inj htail
        exact absurd (List.prefix_append ['-', '-'] body) hnot
    · cases hmark
  | endTag => cases (List.cons.inj (List.cons.inj hr).2).1
  | startTag _ hstart =>
    obtain ⟨c, name, rfl, hc⟩ := hstart
    obtain rfl := (List.cons.inj (List.cons.inj hr).2).1
    cases hc

variable {text pre p q : List Char} {t : Token}

theorem Closing.not_outside {name : List Char} (h : w.Closing foreign name rest) :
    ¬ w.Outside foreign rest := by
  obtain ⟨s, seen, rfl, -⟩ := h.walker
  rintro ⟨-, -, hs | ⟨hs, -⟩⟩ <;> cases hs

/-- Between two tokens, the next one is seen. -/
theorem Outside.crosses (h : w.Outside foreign (u ++ rest)) (ht : t.Written u rest)
    (htext : text = pre ++ (u ++ rest)) :
    w.scanner.Crosses text (t, ⟨byteSize pre, byteSize pre + byteSize u⟩) u rest := by
  cases ht with
  | text hne hu =>
    rcases hu with hu | ⟨rfl, -⟩
    · exact Scanner.crosses_text hu
    · refine ⟨fun p q hpq hp hq => ?_, rfl⟩
      rcases List.append_eq_singleton_iff.1 hpq.symm with ⟨rfl, -⟩ | ⟨-, rfl⟩
      · exact absurd rfl hp
      · exact absurd rfl hq
  | comment hbreak => exact Scanner.crosses_comment hbreak
  | declaration ht hmark hbody => exact Scanner.crosses_declaration ht hmark hbody
  | endTag hc hbody =>
    exact Scanner.crosses_endTag hc hbody
  | startTag hname halpha hstop hpieces =>
    exact Scanner.crosses_startTag hname halpha hstop hpieces htext

/-- Behind a token that no content follows. -/
theorem Outside.after (h : w.Outside foreign (u ++ rest)) (ht : t.Written u rest)
    (hfollows : w.Follows (u ++ rest)) (hmode : Lexing.modeAfter foreign t = none) :
    (w.walk u).Outside (t.foreignAfter foreign) rest := by
  have hu : u ≠ [] := by
    rintro rfl
    exact absurd ht.byteSize_pos (Nat.lt_irrefl 0)
  have hforeign := h.foreign
  rw [h.walk_eq rfl hu]
  cases ht with
  | text hne hu =>
    rcases hu with hu | ⟨rfl, hopens⟩
    · rw [Scanner.walk_text hu]
      exact ⟨rfl, hforeign, .inl rfl⟩
    · refine ⟨rfl, hforeign, .inr ⟨rfl, ?_⟩⟩
      rintro ⟨c, rest, rfl, hc⟩
      by_cases hslash : c = '/'
      · subst hslash
        have hletter : (!rest.head?.any Char.isAlpha) = false := by
          have hfollow := hfollows.cut ['<'] ('/' :: rest) rfl
          rwa [h.walk_eq rfl hu] at hfollow
        cases rest with
        | nil => cases hletter
        | cons d rest => exact hopens (.inr ⟨d, rest, rfl, by simpa using hletter⟩)
      · exact hopens (.inl ⟨c, rest, rfl, by simpa [hslash] using hc⟩)
  | comment hbreak =>
    rw [Scanner.walk_whole_comment hbreak]
    exact ⟨rfl, hforeign, .inl rfl⟩
  | declaration ht hmark hbody =>
    have : t.foreignAfter foreign = foreign := by
      cases t with
      | comment | doctype => rfl
      | text | rawText | startTag | endTag => exact ht.elim
    rw [Scanner.walk_whole_declaration hmark hbody, this]
    exact ⟨rfl, hforeign, .inl rfl⟩
  | endTag hc hbody =>
    rw [Scanner.walk_whole_endTag hc hbody]
    refine ⟨rfl, ?_, .inl rfl⟩
    rw [hforeign]
  | @startTag name interior rest pieces hname halpha hstop hpieces =>
    obtain ⟨state, hclosed, hinside, hwhole⟩ :=
      Scanner.walk_whole_startTag (s := w.scanner) hname halpha hstop hpieces
    obtain ⟨hcount, hstate⟩ := Scanner.enterContent_opened w.scanner name
      (StartTag.ofPieces name pieces).selfClosing
    rw [hforeign] at hcount
    rw [hwhole]
    refine ⟨rfl, hcount, .inl ?_⟩
    rw [hstate]
    refine if_neg ?_
    rintro ⟨hzero, hsome⟩
    -- The tokens expect no content only because the tag closes itself.
    have hclosing : (StartTag.ofPieces name pieces).selfClosing = true := by
      by_contra hopen
      rw [hcount] at hzero
      have hcontent : Lexing.modeAfter foreign (.startTag (StartTag.ofPieces name pieces)) =
          textMode (String.ofList name) := by
        rw [Lexing.modeAfter, Lexing.modeOf, if_neg]
        · rfl
        · have hnone : (Token.startTag (StartTag.ofPieces name pieces)).foreignAfter foreign = 0 :=
            hzero
          rw [hnone]
          simpa using hopen
      rw [← hcontent, hmode] at hsome
      cases hsome
    have hcs : '<' :: (name ++ interior ++ ['>']) ++ rest =
        '<' :: (name ++ interior) ++ '>' :: rest := by simp
    have hstep : (w.walk ('<' :: (name ++ interior))).step '>' =
        w.walk ('<' :: (name ++ interior ++ ['>'])) :=
      (walk_append w ('<' :: (name ++ interior)) ['>']).symm
    have hselfClosing : (w.walk ('<' :: (name ++ interior))).scanner.selfClosing = true := by
      rw [h.walk_eq hcs (by simp), hinside]
      exact hclosing
    have hcontent : ((w.walk ('<' :: (name ++ interior))).step '>').scanner.state =
        .rawText (Scanner.closer name) 0 := by
      rw [hstep, h.walk_eq rfl hu, hwhole, hstate, if_pos ⟨hzero, hsome⟩]
    have hopen := hfollows.cut _ _ hcs
    rw [astray, hcontent, hselfClosing, h.walk_eq hcs (by simp), hinside] at hopen
    cases state with
    | tagName | beforeName | name | afterName => cases hopen
    | value _ quote =>
      cases quote with
      | none => cases hopen
      | some => exact hclosed
    | text | tagOpen | endTag | beforeValue | comment | declaration | rawText => exact hclosed

/-- Behind a token that content follows. -/
theorem Outside.enters {tag : StartTag} {mode : TextMode} (h : w.Outside foreign (u ++ rest))
    (ht : (Token.startTag tag).Written u rest)
    (hmode : Lexing.modeAfter foreign (.startTag tag) = some mode) :
    ∃ s : Scanner, w.walk u = ⟨s.goto (.rawText (Scanner.closer tag.name.toList) 0), 0⟩ ∧
      s.foreign = (Token.startTag tag).foreignAfter foreign ∧ textMode tag.name = some mode := by
  have hu : u ≠ [] := by
    rintro rfl
    exact absurd ht.byteSize_pos (Nat.lt_irrefl 0)
  have hforeign := h.foreign
  rw [h.walk_eq rfl hu]
  cases ht with
  | @startTag name interior rest pieces hname halpha hstop hpieces =>
    obtain ⟨state, -, -, hwhole⟩ :=
      Scanner.walk_whole_startTag (s := w.scanner) hname halpha hstop hpieces
    obtain ⟨hcount, hstate⟩ := Scanner.enterContent_opened w.scanner name
      (StartTag.ofPieces name pieces).selfClosing
    rw [hforeign] at hcount
    rw [Lexing.modeAfter, Lexing.modeOf] at hmode
    split at hmode
    · cases hmode
    · next hopen =>
      have hzero : (Token.startTag (StartTag.ofPieces name pieces)).foreignAfter foreign = 0 := by
        by_contra hne
        simp [hne] at hopen
      have hname' : (StartTag.ofPieces name pieces).name = String.ofList name := rfl
      rw [hname'] at hmode
      rw [if_pos ⟨hcount.trans hzero, by rw [hmode]; rfl⟩] at hstate
      rw [hwhole, hname', String.toList_ofList, ← hstate]
      exact ⟨_, rfl, hcount, hmode⟩
  | declaration hkind => exact hkind.elim

/-- Between two tokens only a node marker says anything. -/
theorem Outside.sees {tokens : List (Token × Span)} {k o : Nat} (h : w.Outside foreign rest)
    (hmarker : nodeMarker.toList <+: rest →
      (Token.comment marker, (⟨o, o + nodeMarker.utf8ByteSize⟩ : Span)) ∈ tokens) :
    w.scanner.Sees text tokens k o rest := by
  unfold Scanner.Sees
  rcases h.state with hs | ⟨hs, -⟩ <;> rw [hs] <;> exact hmarker

/-- A token that is not yet over is seen. -/
theorem Outside.sees_token (h : w.Outside foreign (u ++ rest)) (ht : t.Written u rest)
    (htext : text = pre ++ (u ++ rest)) (hu : u = p ++ q) (hq : q ≠ []) :
    (w.walk p).scanner.Sees text [(t, ⟨byteSize pre, byteSize pre + byteSize u⟩)]
      w.scanner.elements (byteSize pre + byteSize p) (q ++ rest) := by
  by_cases hp : p = []
  · subst hp
    obtain rfl : u = q := hu
    refine h.sees fun hprefix => ?_
    obtain ⟨rfl, rfl⟩ := marker_of_prefix ht hprefix
    have hsize : byteSize nodeMarker.toList = nodeMarker.utf8ByteSize := by decide
    rw [hsize]
    exact List.mem_singleton_self _
  · have hcut : u ++ rest = p ++ (q ++ rest) := by rw [hu, List.append_assoc]
    rw [h.walk_eq hcut hp]
    exact (h.crosses ht htext).sees p q hu hp hq

end Walker

end Hole

open Hole in
/-- In markup that is cut into tokens, the scanner sees at every place in which token it is. -/
theorem Markup.Lexed.sees {start foreign : Nat} {cs text pre : List Char}
    {tokens : List (Token × Span)} {w : Walker} (h : Lexed start foreign cs tokens)
    (htext : text = pre ++ cs) (hstart : byteSize pre = start)
    (hw : w.Outside foreign cs ∨ ∃ name, w.Closing foreign name cs) (hfollows : w.Follows cs)
    (p q : List Char) (hpq : cs = p ++ q) (hp : p ≠ [] ∨ w.Outside foreign cs) :
    (w.walk p).scanner.Sees text tokens w.scanner.elements (start + byteSize p) q := by
  induction h generalizing pre w p with
  | done =>
    obtain ⟨rfl, rfl⟩ := List.append_eq_nil_iff.1 hpq.symm
    have hout := hp.resolve_left fun h => h rfl
    exact hout.sees fun hprefix => by cases List.prefix_nil.1 hprefix
  | @token start foreign u rest t tokens ht hmode hrest ih =>
    subst hstart
    have hafter : (w.walk u).Outside (t.foreignAfter foreign) rest ∧ (w.walk u).scanner.elements =
        w.scanner.elements + (startTags [(t, ⟨byteSize pre, byteSize pre + byteSize u⟩)]).length := by
      rcases hw with hout | ⟨name, hclosing⟩
      · refine ⟨hout.after ht hfollows hmode, ?_⟩
        rw [hout.walk_eq rfl ht.ne_nil]
        exact (hout.crosses ht htext).elements
      · obtain ⟨hend, -, hout, helements⟩ := hclosing.crosses text (byteSize pre) ht
        refine ⟨hout, helements.trans ?_⟩
        cases t with
        | endTag => rfl
        | text | rawText | startTag | comment | doctype => exact hend.elim
    have hbehind (d : List Char) (hd : rest = d ++ q) :
        (w.walk (u ++ d)).scanner.Sees text
          ((t, ⟨byteSize pre, byteSize pre + byteSize u⟩) :: tokens) w.scanner.elements
          (byteSize pre + byteSize (u ++ d)) q := by
      have hsees := ih (by rw [htext, List.append_assoc]) (Text.byteSize_append pre u)
        (.inl hafter.1) hfollows.after d hd (.inr hafter.1)
      have hsize : byteSize pre + byteSize u + byteSize d = byteSize pre + byteSize (u ++ d) := by
        rw [Text.byteSize_append, Nat.add_assoc]
      rw [hafter.2, ← Walker.walk_append, hsize] at hsees
      have hall := hsees.append [_] []
      rwa [List.append_nil, List.singleton_append] at hall
    rcases Text.cut_cases hpq with ⟨a, rfl, rfl⟩ | ⟨d, -, rfl, hd⟩
    · by_cases ha : a = []
      · subst ha
        simpa using hbehind [] rfl
      · have hsees : (w.walk p).scanner.Sees text
            [(t, ⟨byteSize pre, byteSize pre + byteSize (p ++ a)⟩)] w.scanner.elements
            (byteSize pre + byteSize p) (a ++ rest) := by
          rcases hw with hout | ⟨name, hclosing⟩
          · exact hout.sees_token ht htext rfl ha
          · have hne : p ≠ [] := hp.resolve_right hclosing.not_outside
            exact (hclosing.crosses text (byteSize pre) ht).2.1 p a rfl hne ha
        exact hsees.append [] tokens
    · exact hbehind d hd
  | @rawText start foreign u content rest tag mode tokens ht hmode hbreak hrest ih =>
    subst hstart
    have hout : w.Outside foreign (u ++ (content ++ rest)) := by
      rcases hw with hout | ⟨name, hclosing⟩
      · exact hout
      · obtain ⟨n, body, -, -, -, -, he⟩ := hclosing.endTag ht
        cases he
    obtain ⟨s, hwalk, hforeign, htag⟩ := hout.enters ht hmode
    have helements : s.elements = w.scanner.elements + 1 := by
      have hcount := (hout.crosses ht htext).elements
      rw [← hout.walk_eq rfl ht.ne_nil, hwalk] at hcount
      exact hcount
    have hname : textMode (String.ofList tag.name.toList) = some mode := by
      rwa [String.ofList_toList]
    have hcontent (p q : List Char) (hpq : content = p ++ q) :
        ∃ seen, w.walk (u ++ p) = ⟨s.goto (.rawText (Scanner.closer tag.name.toList) seen), 0⟩ := by
      have hstart : Scanner.Pending tag.name.toList 0 [] (content ++ rest) :=
        ⟨rfl, rfl, by simp [Scanner.closer], fun h => absurd rfl h⟩
      obtain ⟨seen, y, hseen, -⟩ :=
        Scanner.walk_content hbreak hstart (hwalk ▸ hfollows.after) hpq
      exact ⟨seen, by rw [Walker.walk_append, hwalk, hseen]⟩
    have hclosing : (w.walk (u ++ content)).Closing ((Token.startTag tag).foreignAfter foreign)
        tag.name.toList rest := by
      obtain ⟨seen, hseen⟩ := hcontent content [] (List.append_nil content).symm
      exact ⟨⟨s, seen, hseen, hforeign⟩, ne_nil_of_textMode hname, isLower_of_textMode hname,
        isForeignRoot_of_textMode hname, Scanner.closes_of_breakAtEndTag hbreak⟩
    have hinside (d b : List Char) (hd : content = d ++ b) :
        (w.walk (u ++ d)).scanner.Sees text
          ((.startTag tag, ⟨byteSize pre, byteSize pre + byteSize u⟩) ::
            (Lexing.contentTokens mode tag.name (byteSize pre + byteSize u) content ++ tokens))
          w.scanner.elements (byteSize pre + byteSize (u ++ d)) (b ++ rest) := by
      obtain ⟨seen, hseen⟩ := hcontent d b hd
      rw [hseen]
      refine fun _ => ⟨tag, _, byteSize pre + byteSize u + byteSize content, List.mem_cons_self,
        by rw [htag]; rfl, ?_, ?_, ?_, ?_⟩
      · rw [Lexing.contentTokens]
        split
        · next hempty =>
          rw [List.isEmpty_iff.1 hempty]
          exact .inl rfl
        · exact .inr ⟨_, List.mem_cons_of_mem _ (List.mem_append_left _ List.mem_cons_self)⟩
      · rcases hclosing.next hrest with rfl | ⟨t, ht, hend⟩
        · exact .inl (by rw [htext]; simp [Nat.add_assoc])
        · exact .inr ⟨t, List.mem_cons_of_mem _ (List.mem_append_right _ ht), hend⟩
      · rw [Text.byteSize_append]
        simp only
        omega
      · rw [hd, Text.byteSize_append, Text.byteSize_append]
        omega
    rcases Text.cut_cases hpq with ⟨a, rfl, rfl⟩ | ⟨d, -, rfl, hd⟩
    · by_cases ha : a = []
      · subst ha
        simpa using hinside [] content rfl
      · exact (hout.sees_token ht htext rfl ha).append [] _
    · rcases Text.cut_cases hd with ⟨b, rfl, rfl⟩ | ⟨e, he, rfl, rfl⟩
      · exact hinside d b rfl
      · have hfollows' : (w.walk (u ++ content)).Follows (e ++ q) :=
          Walker.Follows.after (by rwa [List.append_assoc])
        have htext' : text = pre ++ u ++ content ++ (e ++ q) := by rw [htext]; simp
        have hsees := ih htext' (by simp [Nat.add_assoc]) (.inr ⟨_, hclosing⟩) hfollows' e rfl (.inl he)
        have hcount : (w.walk (u ++ content)).scanner.elements = w.scanner.elements + 1 := by
          obtain ⟨seen, hseen⟩ := hcontent content [] (List.append_nil content).symm
          rw [hseen]
          exact helements
        have hsize : byteSize pre + byteSize u + byteSize content + byteSize e =
            byteSize pre + byteSize (u ++ (content ++ e)) := by
          simp [Nat.add_assoc]
        rw [hcount, ← Walker.walk_append, List.append_assoc, hsize] at hsees
        have hstarts : (startTags ((.startTag tag, ⟨byteSize pre, byteSize pre + byteSize u⟩) ::
            Lexing.contentTokens mode tag.name (byteSize pre + byteSize u) content)).length = 1 := by
          rw [Lexing.contentTokens]
          split <;> rfl
        rw [← hstarts] at hsees
        simpa using hsees.append _ []

end LiveMarkup
