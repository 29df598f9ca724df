import LiveMarkup.Proofs.Template.Finding

set_option autoImplicit false

/-!
The holes of a template at their places in its markup. The scanner goes over the fragments, and a
hole may make it forget that it was inside an opening comment or an end tag. A walker over the markup
comes to the same states at all holes unless what follows the hole completes what was forgotten.
-/

namespace LiveMarkup

open Markup
open Text (byteSize)

namespace Scan

/-- The holes of a scan, with the bytes at which what is written for them begins. -/
def placed (s : Hole.Scanner) (start : Nat) (first : String) : List String → List (Hole × Nat)
  | [] => []
  | next :: rest =>
    let o := start + first.utf8ByteSize
    let (hole, written, s) := (s.feed first.toList).hole
    (hole, o) :: placed s (o + written.utf8ByteSize) next rest

theorem map_fst_placed (s : Hole.Scanner) (start : Nat) (first : String) (rest : List String) :
    (placed s start first rest).map Prod.fst = (ofFragments s first rest).holes := by
  induction rest generalizing s start first with
  | nil => rfl
  | cons next rest ih => simp only [placed, ofFragments, List.map_cons, ih]

end Scan

namespace Hole

/-- What a scanner that reads markup knows in a state. -/
def State.Known : State → Prop
  | .value _ (some quote) => quote = '"' ∨ quote = '\''
  | .rawText close _ =>
    ∃ name, close = Scanner.closer name ∧ ∀ c ∈ name.map Char.toLower, c.isLower = true
  | _ => True

structure Scanner.Sound (s : Scanner) : Prop where
  tag : s.tag.map Char.toLower = s.tag
  state : s.state.Known

namespace Scanner

variable {s : Scanner} {c : Char}

theorem step_rawText (s : Scanner) (close : List Char) (seen : Nat) (c : Char) :
    (s.goto (.rawText close seen)).step c =
      if close[seen]? = some c.toLower then
        if seen + 1 = close.length then s.goto (.endTag [])
        else s.goto (.rawText close (seen + 1))
      else s.goto (.rawText close (if c = '<' then 1 else 0)) := rfl

theorem Sound.goto {state : State} (h : s.Sound) (hstate : state.Known) : (s.goto state).Sound :=
  ⟨h.tag, hstate⟩

theorem Sound.enterContent (h : s.Sound) : s.enterContent.Sound := by
  unfold Scanner.enterContent
  simp only
  split
  · split <;> exact ⟨h.tag, trivial⟩
  · split
    · exact ⟨h.tag, trivial⟩
    · next hmode =>
      simp only [Bool.or_eq_true, not_or, Bool.not_eq_true, Option.isNone_eq_false_iff] at hmode
      obtain ⟨mode, hmode⟩ := Option.isSome_iff_exists.1 hmode.2
      exact ⟨h.tag, s.tag, by rw [closer, h.tag], isLower_of_textMode hmode⟩

theorem Sound.step (h : s.Sound) (c : Char) : (s.step c).Sound := by
  unfold Scanner.step
  match hs : s.state with
  | .rawText close seen =>
    have hclose : (State.rawText close seen).Known := hs ▸ h.state
    simp only
    repeat' split
    all_goals first
      | exact h.goto trivial
      | exact h.goto hclose
  | .beforeValue name =>
    simp only
    split
    · exact h.enterContent
    split
    · next hquote => exact h.goto hquote
    split
    · exact h
    · exact h.goto trivial
  | .tagOpen | .tagName | .text | .endTag _ | .beforeName | .name _ | .afterName _
  | .value _ (some _) | .value _ none | .comment _ | .declaration =>
    simp only
    repeat' split
    all_goals first
      | exact h
      | exact h.goto trivial
      | exact h.enterContent
      | exact ⟨by simp [h.tag, startTag, slash, leave], trivial⟩

/-- Where no value can go, nothing is written. -/
theorem hole_closed {place : ClosedPlace} (h : s.hole.1 = .closed place) :
    s.hole.2.1 = "" ∧ (s.hole.2.2 = s ∨ ∃ close seen, s.state = .rawText close seen ∧
      s.hole.2.2 = s.goto (.rawText close 0)) := by
  obtain ⟨state, elements, tag, foreign, selfClosing⟩ := s
  match state with
  | .text | .tagOpen | .beforeValue _ | .value _ _ => cases h
  | .rawText close seen => exact ⟨rfl, .inr ⟨close, seen, rfl, rfl⟩⟩
  | .comment _ | .declaration | .endTag _ | .tagName | .beforeName | .name _ | .afterName _ =>
    exact ⟨rfl, .inl rfl⟩

theorem hole_declaration (h : s.state = .declaration) :
    s.hole = (.closed .declaration, "", s) := by simp [Scanner.hole, h]

/-- Behind a hole. -/
theorem Sound.hole (h : s.Sound) : s.hole.2.2.Sound := by
  unfold Scanner.hole
  match hs : s.state with
  | .rawText close seen =>
    have hclose : (State.rawText close seen).Known := hs ▸ h.state
    exact h.goto hclose
  | .text | .tagOpen | .beforeValue _ => exact h.goto trivial
  | .value _ _ | .comment _ | .declaration | .endTag _ | .tagName | .beforeName | .name _
  | .afterName _ => exact h

end Scanner

namespace Walker

structure Sound (w : Walker) : Prop where
  scanner : w.scanner.Sound
  bang : w.bang ≠ 0 → w.scanner.state = .declaration

/-- The next characters complete an opening comment or an end tag whose beginning was just read. -/
def torn (w : Walker) (rest : List Char) : Bool :=
  match w.scanner.state with
  | .rawText close seen =>
    seen != 0 && (close.drop seen).isPrefixOf (rest.map Char.toLower)
  | _ => w.bang != 0 && (['-', '-'].drop (w.bang - 1)).isPrefixOf rest

/-- A walker that does not know of a beginning that another one has read, which is never completed. -/
inductive Trails : Walker → Walker → List Char → Prop
  | same {w : Walker} {rest : List Char} : Trails w w rest
  | comment {s : Scanner} {bang : Nat} {rest : List Char} :
      s.state = .declaration → bang ≠ 0 → ¬ ['-', '-'].drop (bang - 1) <+: rest →
      Trails ⟨s, bang⟩ ⟨s, 0⟩ rest
  | endTag {s : Scanner} {name : List Char} {seen : Nat} {rest : List Char} :
      seen ≠ 0 → (∀ c ∈ name.map Char.toLower, c.isLower = true) →
      ¬ (Scanner.closer name).drop seen <+: rest.map Char.toLower →
      Trails ⟨s.goto (.rawText (Scanner.closer name) seen), 0⟩
        ⟨s.goto (.rawText (Scanner.closer name) 0), 0⟩ rest

variable {w v : Walker} {c : Char} {cs rest : List Char}

theorem Sound.step (h : w.Sound) (c : Char) : (w.step c).Sound := by
  unfold Walker.step
  split
  · exact ⟨h.scanner.goto trivial, fun hbang => absurd rfl hbang⟩
  split
  · next hc =>
    refine ⟨h.scanner.step c, fun _ => ?_⟩
    have hs := h.bang (by omega)
    rw [Scanner.step_declaration hs (by rw [hc.2]; decide), hs]
  · refine ⟨h.scanner.step c, fun hbang => ?_⟩
    simp only [ne_eq, ite_eq_right_iff, not_forall] at hbang
    obtain ⟨⟨hopen, rfl⟩, -⟩ := hbang
    simp [Scanner.step, hopen, Scanner.goto]

theorem Sound.walk (h : w.Sound) (cs : List Char) : (w.walk cs).Sound := by
  induction cs generalizing w with
  | nil => exact h
  | cons c cs ih => exact ih (h.step c)

/-- One character: the beginning goes on, or both walkers leave it. -/
theorem Trails.step (h : Trails w v (c :: rest)) : Trails (w.step c) (v.step c) rest := by
  cases h with
  | same => exact .same
  | @comment s bang _ hs hbang hnot =>
    have hs' : s.state ≠ .tagOpen := by simp [hs]
    rw [step_of_ne hs']
    by_cases hc : c = '-'
    · subst hc
      have hstep : s.step '-' = s := Scanner.step_declaration hs (by decide)
      rw [hstep]
      match bang with
      | 0 => exact absurd rfl hbang
      | 1 =>
        have hstep' : Walker.step ⟨s, 1⟩ '-' = ⟨s, 2⟩ := by simp [Walker.step, hstep]
        rw [hstep']
        exact .comment hs (by decide) fun h => hnot (by simpa using h)
      | 2 => exact absurd (by simp) hnot
      | bang + 3 => exact absurd (by simp) hnot
    · have hstep : Walker.step ⟨s, bang⟩ c = ⟨s.step c, 0⟩ := by simp [Walker.step, hc, hs]
      rw [hstep]
      exact .same
  | @endTag s name seen _ hseen hletters hnot =>
    rw [step_of_ne (by simp), step_of_ne (by simp)]
    have hfirst : (Scanner.closer name)[0]? = some '<' := rfl
    have hone : ¬ 0 + 1 = (Scanner.closer name).length := by
      rw [Scanner.length_closer]
      omega
    have hletter : c.toLower = '<' ↔ c = '<' :=
      ⟨fun h => Text.eq_of_toLower_eq h rfl, fun h => by rw [h]; rfl⟩
    by_cases hmatch : (Scanner.closer name)[seen]? = some c.toLower
    · have hc : c.toLower ≠ '<' := fun h =>
        Scanner.getElem?_closer_ne hletters hseen (by rw [hmatch, h])
      have hdrop : (Scanner.closer name).drop seen =
          c.toLower :: (Scanner.closer name).drop (seen + 1) := by
        obtain ⟨hlt, hget⟩ := List.getElem?_eq_some_iff.1 hmatch
        rw [List.drop_eq_getElem_cons hlt, hget]
      have hnot' : ¬ (Scanner.closer name).drop (seen + 1) <+: rest.map Char.toLower := by
        rw [hdrop] at hnot
        exact fun h => hnot (by simpa using h)
      have hend : ¬ seen + 1 = (Scanner.closer name).length := fun h => hnot' (by simp [h])
      have hzero : ¬ some '<' = some c.toLower := fun h => hc (Option.some.inj h).symm
      rw [Scanner.step_rawText, Scanner.step_rawText, if_pos hmatch, if_neg hend, hfirst,
        if_neg hzero, if_neg (mt hletter.2 hc)]
      exact .endTag (Nat.succ_ne_zero _) hletters hnot'
    · rw [Scanner.step_rawText, Scanner.step_rawText, if_neg hmatch, hfirst]
      by_cases hlt : c = '<'
      · rw [if_pos hlt, if_pos (congrArg some (hletter.2 hlt).symm), if_neg hone]
        exact .same
      · have hzero : ¬ some '<' = some c.toLower := fun h =>
          hlt (hletter.1 (Option.some.inj h).symm)
        rw [if_neg hlt, if_neg hzero]
        exact .same

theorem Trails.walk (h : Trails w v (cs ++ rest)) : Trails (w.walk cs) (v.walk cs) rest := by
  induction cs generalizing w v with
  | nil => exact h
  | cons c cs ih => exact ih h.step

/-- Both find the same hole and write the same for it. -/
theorem Trails.hole_eq (h : Trails w v rest) :
    w.scanner.hole.1 = v.scanner.hole.1 ∧ w.scanner.hole.2.1 = v.scanner.hole.2.1 := by
  cases h <;> exact ⟨rfl, rfl⟩

theorem walk_nodeMarker (s : Scanner) :
    Walker.walk ⟨s.goto .text, 0⟩ nodeMarker.toList = ⟨s.goto .text, 0⟩ := by
  rw [toList_nodeMarker]
  exact Scanner.walk_whole_comment (breakOn_marker [])

theorem walk_nodeMarker_tagOpen (s : Scanner) :
    Walker.walk ⟨s.goto .tagOpen, 0⟩ nodeMarker.toList = ⟨s.goto .text, 0⟩ := by
  have hlt (cs : List Char) : Walker.walk ⟨s.goto .tagOpen, 0⟩ ('<' :: cs) =
      Walker.walk ⟨s.goto .text, 0⟩ ('<' :: cs) := rfl
  rw [toList_nodeMarker, hlt, ← toList_nodeMarker, walk_nodeMarker]

theorem isUnquotedChar_marker : ∀ c ∈ marker.toList, isUnquotedChar c = true :=
  List.all_eq_true.1 (by decide)

theorem walk_marker_beforeValue (s : Scanner) (name : List Char) :
    Walker.walk ⟨s.goto (.beforeValue name), 0⟩ marker.toList =
      ⟨s.goto (.value name none), 0⟩ := by
  have hmarker : marker.toList = '\x7b' :: marker.toList.tail := by decide
  have hstep : Walker.step ⟨s.goto (.beforeValue name), 0⟩ '\x7b' =
      ⟨s.inTag (.value name none) s.selfClosing, 0⟩ := rfl
  rw [hmarker, walk_cons, hstep, ← Scanner.walkTag]
  exact Scanner.walkTag_unquoted fun c hc =>
    isUnquotedChar_marker c (List.mem_of_mem_tail hc)

/-- Where values can go, what is written for a hole leads behind it. -/
theorem walk_written {s : Scanner} (h : s.Sound) (hopen : ∀ place, s.hole.1 ≠ .closed place) :
    Walker.walk ⟨s, 0⟩ s.hole.2.1.toList = ⟨s.hole.2.2, 0⟩ := by
  obtain ⟨state, elements, tag, foreign, selfClosing⟩ := s
  match state with
  | .text => exact walk_nodeMarker ⟨.text, elements, tag, foreign, selfClosing⟩
  | .tagOpen => exact walk_nodeMarker_tagOpen ⟨.text, elements, tag, foreign, selfClosing⟩
  | .beforeValue name =>
    exact walk_marker_beforeValue ⟨.text, elements, tag, foreign, selfClosing⟩ name
  | .value name none =>
    have hvalue := Scanner.walkTag_unquoted (s := ⟨.text, elements, tag, foreign, selfClosing⟩)
      (n := name) (b := selfClosing) isUnquotedChar_marker
    exact hvalue
  | .value name (some quote) =>
    have hquote : quote ∉ marker.toList := by
      rcases h.state with rfl | rfl <;> decide
    have hvalue := Scanner.walkTag_quoted (s := ⟨.text, elements, tag, foreign, selfClosing⟩)
      (n := name) (b := selfClosing) hquote
    exact hvalue
  | .comment _ => exact absurd rfl (hopen .comment)
  | .declaration | .endTag _ => exact absurd rfl (hopen .declaration)
  | .tagName | .beforeName | .name _ | .afterName _ => exact absurd rfl (hopen .tag)
  | .rawText _ _ => exact absurd rfl (hopen .rawText)

/-- Behind a hole that tears nothing apart. -/
theorem Trails.behind (hv : v.Sound) (h : Trails w v (v.scanner.hole.2.1.toList ++ rest))
    (hwhole : w.torn (v.scanner.hole.2.1.toList ++ rest) = false) :
    Trails (w.walk v.scanner.hole.2.1.toList) ⟨v.scanner.hole.2.2, 0⟩ rest := by
  by_cases hopen : ∀ place, v.scanner.hole.1 ≠ .closed place
  · have hbang : v.bang = 0 := by
      by_contra hbang
      exact hopen .declaration (by rw [Scanner.hole_declaration (hv.bang hbang)])
    obtain ⟨s, bang⟩ := v
    obtain rfl : bang = 0 := hbang
    cases h with
    | same =>
      rw [walk_written hv.scanner hopen]
      exact .same
    | comment hs => exact absurd (by rw [Scanner.hole_declaration hs]) (hopen .declaration)
    | endTag => exact absurd rfl (hopen .rawText)
  · simp only [not_forall, not_not] at hopen
    obtain ⟨place, hplace⟩ := hopen
    obtain ⟨hnothing, hnext⟩ := Scanner.hole_closed hplace
    rw [hnothing] at h hwhole ⊢
    rw [String.toList_empty, List.nil_append] at h hwhole
    rw [String.toList_empty, walk_nil]
    cases h with
    | @comment s bang _ hs hbang hnot =>
      rw [Scanner.hole_declaration hs]
      exact .comment hs hbang hnot
    | endTag hseen hletters hnot => exact .endTag hseen hletters hnot
    | same =>
      obtain ⟨s, bang⟩ := w
      by_cases hbang : bang = 0
      · subst hbang
        rcases hnext with hnext | ⟨close, seen, hs, hnext⟩
        · rw [hnext]
          exact .same
        · obtain ⟨name, rfl, hletters⟩ : (State.rawText close seen).Known := hs ▸ hv.scanner.state
          have hself : s = s.goto (.rawText (Scanner.closer name) seen) := by
            rw [← hs]
            rfl
          rw [hnext]
          by_cases hseen : seen = 0
          · rw [hseen] at hself
            rw [← hself]
            exact .same
          · have hnot : ¬ (Scanner.closer name).drop seen <+: rest.map Char.toLower :=
              fun hp => by
                have hs' : s.state = .rawText (Scanner.closer name) seen := hs
                simp [torn, hs', hseen, List.isPrefixOf_iff_prefix.2 hp] at hwhole
            nth_rewrite 1 [hself]
            exact .endTag hseen hletters hnot
      · have hs : s.state = .declaration := hv.bang hbang
        rw [Scanner.hole_declaration hs]
        refine .comment hs hbang fun hp => ?_
        simp [torn, hs, hbang, List.isPrefixOf_iff_prefix.2 hp] at hwhole

end Walker

end Hole

namespace Scan

open Hole

/-- A walker over the markup comes to every hole in a state that gives the hole and what is written
for it. -/
theorem placed_walk {s : Scanner} {w : Walker} {start : Nat} {first : String} {rest : List String}
    {tail : List Char} (hs : s.Sound)
    (h : w.Trails ⟨s, 0⟩ ((ofFragments s first rest).markup.toList ++ tail))
    (hwhole : Text.AtCuts ((ofFragments s first rest).markup.toList ++ tail) fun p q =>
      start + byteSize p ∈ (placed s start first rest).map Prod.snd → (w.walk p).torn q = false) :
    ∀ x ∈ placed s start first rest, ∃ p q,
      (ofFragments s first rest).markup.toList ++ tail = p ++ q ∧ start + byteSize p = x.2 ∧
        (w.walk p).scanner.hole.1 = x.1 ∧ (w.walk p).scanner.hole.2.1.toList <+: q := by
  induction rest generalizing s w start first with
  | nil => exact nofun
  | cons next rest ih =>
    obtain ⟨v, hv⟩ : ∃ v : Walker, v = Walker.walk ⟨s, 0⟩ first.toList := ⟨_, rfl⟩
    have hfeed : s.feed first.toList = v.scanner := by rw [Scanner.feed_eq_walk, hv]
    have hmarkup : (ofFragments s first (next :: rest)).markup.toList ++ tail =
        first.toList ++ (v.scanner.hole.2.1.toList ++
          ((ofFragments v.scanner.hole.2.2 next rest).markup.toList ++ tail)) := by
      simp [ofFragments, hfeed, List.append_assoc]
    have hplaced : placed s start first (next :: rest) =
        (v.scanner.hole.1, start + first.utf8ByteSize) :: placed v.scanner.hole.2.2
          (start + first.utf8ByteSize + v.scanner.hole.2.1.utf8ByteSize) next rest := by
      simp only [placed, hfeed]
    rw [hmarkup] at h hwhole ⊢
    rw [hplaced] at hwhole ⊢
    have hsound : v.Sound := hv ▸ Walker.Sound.walk ⟨hs, fun hbang => absurd rfl hbang⟩ _
    have htrails := h.walk
    rw [← hv] at htrails
    have hhere := hwhole first.toList _ rfl (by
      rw [Text.byteSize_toList]
      exact List.mem_cons_self)
    have hbehind := htrails.behind hsound hhere
    refine List.forall_mem_cons.2 ⟨⟨first.toList, _, rfl, by rw [Text.byteSize_toList],
      htrails.hole_eq.1, ?_⟩, fun x hx => ?_⟩
    · rw [htrails.hole_eq.2]
      exact List.prefix_append _ _
    · have hx' := ih hsound.scanner.hole hbehind
        (fun p q hpq ho => by
          have := hwhole (first.toList ++ (v.scanner.hole.2.1.toList ++ p)) q (by simp [hpq])
            (by
              rw [Text.byteSize_append, Text.byteSize_append, Text.byteSize_toList,
                Text.byteSize_toList, ← Nat.add_assoc, ← Nat.add_assoc]
              exact List.mem_cons_of_mem _ ho)
          rwa [Walker.walk_append, Walker.walk_append] at this) x hx
      obtain ⟨p, q, hpq, ho, hhole, hwritten⟩ := hx'
      refine ⟨first.toList ++ (v.scanner.hole.2.1.toList ++ p), q, by simp [hpq], ?_, ?_⟩
      · simp only [Text.byteSize_append, Text.byteSize_toList]
        omega
      · rw [Walker.walk_append, Walker.walk_append]
        exact ⟨hhole, hwritten⟩

end Scan

end LiveMarkup
