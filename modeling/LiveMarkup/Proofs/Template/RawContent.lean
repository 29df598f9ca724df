import LiveMarkup.Proofs.Markup.Letters
import LiveMarkup.Proofs.Template.Crossing

set_option autoImplicit false

/-!
The content of elements that hold no markup: the scanner of holes looks for the letters of the end tag
one by one, and comes to the end tag where the content is broken off.
-/

namespace LiveMarkup

open Markup
open Text (byteSize isTagSpace)

namespace Hole

namespace Scanner

open Walker

variable {s : Scanner} {cs p q rest : List Char}

section RawText

variable {name content y : List Char} {seen : Nat} {c : Char}

/-- The beginning of the end tag of an element, in lower case. -/
def closer (name : List Char) : List Char := '<' :: '/' :: name.map Char.toLower

/-- Behind a start tag. -/
theorem enterContent_opened (s : Scanner) (name : List Char) (b : Bool) :
    let s' := ((s.opened name).inTag .text b).enterContent
    s'.foreign = (if isForeignRoot (String.ofList name) && !b then s.foreign + 1 else s.foreign) ∧
      s'.state = if s'.foreign = 0 ∧ (textMode (String.ofList name)).isSome then
        .rawText (closer name) 0 else .text := by
  have hlower : (name.map Char.toLower).map Char.toLower = name.map Char.toLower := by
    simp
  have hroot := isForeignRoot_congr hlower
  have hmode := textMode_congr hlower
  intro s'
  simp only [s', enterContent, opened, inTag, hroot, hmode]
  cases hr : isForeignRoot (String.ofList name) with
  | true =>
    have hnone : textMode (String.ofList name) = none := by
      by_contra hne
      obtain ⟨mode, hmode⟩ := Option.ne_none_iff_exists'.1 hne
      rw [isForeignRoot_of_textMode hmode] at hr
      cases hr
    cases b <;> simp [hnone]
  | false =>
    cases hm : textMode (String.ofList name) with
    | none => simp
    | some mode =>
      by_cases hzero : s.foreign = 0
      · simp [hzero, closer]
      · simp [hzero, Nat.pos_of_ne_zero hzero]

/-- What the content of an element ends before. -/
def IsCloser (name cs : List Char) : Prop :=
  ∃ rest, cs = '<' :: '/' :: rest ∧ closesElement name rest = true

/-- The last characters of content, `y`, are those of an end tag, but no end tag is written there. -/
structure Pending (name : List Char) (seen : Nat) (y rest : List Char) : Prop where
  length : y.length = seen
  lower : y.map Char.toLower = (closer name).take seen
  lt : seen < (closer name).length
  not_closer : y ≠ [] → ¬ IsCloser name (y ++ rest)

theorem closesElement_of {n : List Char} (hn : n.map Char.toLower = name.map Char.toLower)
    (hrest : EndsName rest) : closesElement name (n ++ rest) = true := by
  have hlength : n.length = name.length := by simpa using congrArg List.length hn
  rw [closesElement, ← hlength, List.take_left, List.drop_left, Text.sameLetters, hn, beq_self_eq_true,
    Bool.true_and]
  rcases hrest with rfl | ⟨c, rest, rfl, hc⟩
  · rfl
  · exact hc

theorem cut_of_closesElement (h : closesElement name rest = true) :
    ∃ n rest', rest = n ++ rest' ∧ n.map Char.toLower = name.map Char.toLower ∧ EndsName rest' := by
  rw [closesElement, Bool.and_eq_true] at h
  refine ⟨rest.take name.length, rest.drop name.length, (List.take_append_drop _ _).symm,
    beq_iff_eq.1 h.1, ?_⟩
  match hdrop : rest.drop name.length with
  | [] => exact .inl rfl
  | c :: rest' => exact .inr ⟨c, rest', rfl, by simpa [hdrop] using h.2⟩

theorem isCloser_of {a : List Char} (ha : a.map Char.toLower = closer name)
    (hrest : EndsName rest) : IsCloser name (a ++ rest) := by
  match a with
  | x :: z :: n =>
    obtain ⟨hx, htail⟩ := List.cons.inj (show x.toLower :: _ = _ from ha)
    obtain ⟨hz, hn⟩ := List.cons.inj (show z.toLower :: _ = _ from htail)
    obtain rfl := Text.eq_of_toLower_eq hx rfl
    obtain rfl := Text.eq_of_toLower_eq hz rfl
    exact ⟨n ++ rest, rfl, closesElement_of hn hrest⟩
  | [] | [_] => simpa [closer] using congrArg List.length ha

theorem breakAtEndTag_cons (h : ¬ IsCloser name (c :: cs)) :
    breakAtEndTag name (c :: cs) =
      (c :: (breakAtEndTag name cs).1, (breakAtEndTag name cs).2) := by
  rw [breakAtEndTag, if_neg]
  intro hcloser
  simp only [Bool.and_eq_true, beq_iff_eq] at hcloser
  obtain ⟨⟨rfl, hslash⟩, hname⟩ := hcloser
  cases cs with
  | nil => cases hslash
  | cons d cs =>
    obtain rfl : d = '/' := Option.some.inj hslash
    exact h ⟨cs, rfl, hname⟩

theorem breakAtEndTag_closer (h : IsCloser name cs) : breakAtEndTag name cs = ([], cs) := by
  obtain ⟨rest, rfl, hname⟩ := h
  simp [breakAtEndTag, hname]

theorem closes_of_breakAtEndTag {s : List Char} (h : breakAtEndTag name s = (content, rest)) :
    rest = [] ∨ IsCloser name rest := by
  induction s generalizing content with
  | nil => exact .inl (Prod.mk.inj h).2.symm
  | cons c s ih =>
    by_cases hc : IsCloser name (c :: s)
    · rw [breakAtEndTag_closer hc] at h
      exact .inr ((Prod.mk.inj h).2 ▸ hc)
    · rw [breakAtEndTag_cons hc] at h
      exact ih (Prod.ext rfl (Prod.mk.inj h).2)

theorem getElem?_closer_ne (hletters : ∀ d ∈ name.map Char.toLower, d.isLower = true)
    (hseen : seen ≠ 0) : (closer name)[seen]? ≠ some '<' := by
  intro h
  match seen with
  | 0 => exact hseen rfl
  | 1 => cases h
  | seen + 2 =>
    have hmem : '<' ∈ name.map Char.toLower := List.mem_of_getElem? (by simpa [closer] using h)
    cases hletters _ hmem

/-- One character of content. -/
theorem step_pending (h : Pending name seen y (c :: cs)) (hc : ¬ IsCloser name (c :: cs))
    (hends : ((s.goto (.rawText (closer name) seen)).step c).state = .endTag [] → EndsName cs) :
    ∃ seen' y', (s.goto (.rawText (closer name) seen)).step c =
      s.goto (.rawText (closer name) seen') ∧ Pending name seen' y' cs := by
  by_cases hmatch : (closer name)[seen]? = some c.toLower
  · have hlower : (y ++ [c]).map Char.toLower = (closer name).take (seen + 1) := by
      rw [List.map_append, h.lower, List.take_add_one, hmatch]
      rfl
    have hnot : ¬ IsCloser name (y ++ [c] ++ cs) := by
      rw [List.append_assoc]
      by_cases hy : y = []
      · rw [hy]
        exact hc
      · exact h.not_closer hy
    by_cases hend : seen + 1 = (closer name).length
    · refine absurd (isCloser_of ?_ (hends (by simp [step, goto, hmatch, hend]))) hnot
      rw [hlower, hend, List.take_length]
    · refine ⟨seen + 1, y ++ [c], by simp [step, goto, hmatch, hend], by simp [h.length], hlower,
        ?_, fun _ => hnot⟩
      have := h.lt
      omega
  · by_cases hlt : c = '<'
    · subst hlt
      have hmatch' : ¬ (closer name)[seen]? = some '<' := hmatch
      exact ⟨1, ['<'], by simp [step, goto, hmatch'], rfl, rfl, by simp [closer], fun _ => hc⟩
    · exact ⟨0, [], by simp [step, goto, hmatch, hlt], rfl, rfl, by simp [closer], by simp⟩

/-- Content that is not markup, up to any place in it. -/
theorem walk_content (hbreak : breakAtEndTag name cs = (content, rest))
    (h : Pending name seen y cs)
    (hfollows : Follows ⟨s.goto (.rawText (closer name) seen), 0⟩ cs) (hpq : content = p ++ q) :
    ∃ seen' y', walk ⟨s.goto (.rawText (closer name) seen), 0⟩ p =
      ⟨s.goto (.rawText (closer name) seen'), 0⟩ ∧ Pending name seen' y' (q ++ rest) := by
  have happend := append_breakAtEndTag name cs
  rw [hbreak] at happend
  induction p generalizing cs content seen y with
  | nil =>
    obtain rfl : content = q := hpq
    exact ⟨seen, y, rfl, happend ▸ h⟩
  | cons c p ih =>
    subst hpq
    obtain ⟨d, cs, rfl⟩ : ∃ d cs', cs = d :: cs' := ⟨c, p ++ q ++ rest, happend.symm⟩
    have hc : ¬ IsCloser name (d :: cs) := by
      intro hcloser
      rw [breakAtEndTag_closer hcloser] at hbreak
      cases (Prod.mk.inj hbreak).1
    rw [breakAtEndTag_cons hc] at hbreak
    obtain ⟨hfirst, hrest⟩ := Prod.mk.inj hbreak
    obtain ⟨rfl, hinside⟩ := List.cons.inj hfirst
    have hends : ((s.goto (.rawText (closer name) seen)).step d).state = .endTag [] →
        EndsName cs := by
      intro hend
      have hname := hfollows.cut [] (d :: cs) rfl
      rw [walk_nil, astray, step_of_ne (by simp), hend] at hname
      exact endsName_of_head? (by simpa using hname)
    obtain ⟨seen', y', hstep, hpending⟩ := step_pending h hc hends
    have hwalk (p : List Char) : walk ⟨s.goto (.rawText (closer name) seen), 0⟩ (d :: p) =
        walk ⟨s.goto (.rawText (closer name) seen'), 0⟩ p := by
      rw [walk_cons, step_of_ne (by simp), hstep]
    have hfollows' : Follows ⟨s.goto (.rawText (closer name) seen'), 0⟩ cs := by
      have := Follows.after (u := [d]) hfollows
      rwa [hwalk, walk_nil] at this
    rw [hwalk]
    exact ih (Prod.ext hinside hrest) hpending hfollows' rfl (List.cons.inj happend).2

/-- The end tag that content ends before, as it is written. -/
theorem endTag_of_closes {u : List Char} {t : Token} (hnamed : name ≠ [])
    (hlower : ∀ c ∈ name.map Char.toLower, c.isLower = true)
    (hcloses : u ++ rest = [] ∨ IsCloser name (u ++ rest)) (ht : t.Written u rest) :
    ∃ n body, u = '<' :: '/' :: (n ++ body ++ ['>']) ∧ '>' ∉ body ∧
      n.map Char.toLower = name.map Char.toLower ∧
      (body = [] ∨ Starts (fun c => isTagSpace c || c == '/') body) ∧
      t = .endTag (String.ofList n) := by
  obtain hnil | ⟨r, hr, hname⟩ := hcloses
  · have := ht.byteSize_pos
    rw [(List.append_eq_nil_iff.1 hnil).1] at this
    cases this
  obtain ⟨n, r, rfl, hn, hends⟩ := cut_of_closesElement hname
  have hletters : ∀ c ∈ n, c.isAlpha = true := fun c hc =>
    Text.isAlpha_of_isLower_toLower (hlower c.toLower (hn ▸ List.mem_map_of_mem hc))
  obtain ⟨a, n, rfl⟩ : ∃ a n', n = a :: n' := by
    refine List.exists_cons_of_ne_nil ?_
    rintro rfl
    exact hnamed (List.map_eq_nil_iff.1 hn.symm)
  have halpha := hletters a List.mem_cons_self
  cases ht with
  | text hne hu =>
    obtain ⟨c, u, rfl⟩ := List.exists_cons_of_ne_nil hne
    obtain ⟨rfl, hrest⟩ := List.cons.inj hr
    rcases hu with hmem | ⟨hu, hopens⟩
    · exact absurd List.mem_cons_self hmem
    · obtain rfl := (List.cons.inj hu).2
      exact absurd (.inr ⟨a, n ++ r, hrest, halpha⟩) hopens
  | comment => cases (List.cons.inj (List.cons.inj hr).2).1
  | declaration _ hmark =>
    obtain rfl := (List.cons.inj (List.cons.inj hr).2).1
    rcases hmark with ⟨hmark, -⟩ | hmark <;> cases hmark
  | startTag _ hstart =>
    obtain ⟨c, name, rfl, hc⟩ := hstart
    obtain rfl := (List.cons.inj (List.cons.inj hr).2).1
    cases hc
  | @endTag c body rest hc hbody =>
    have hcut : (c :: body) ++ ('>' :: rest) = (a :: n) ++ r := by
      have := (List.cons.inj (List.cons.inj hr).2).2
      simpa using this
    rcases Text.cut_cases hcut with ⟨b, hb, rfl⟩ | ⟨d, hd, hd', hgt⟩
    · have hgt : '>' ∉ b := fun hmem => hbody (by
        have : '>' ∈ c :: body := by rw [hb]; simp [hmem]
        rcases List.mem_cons.1 this with he | hmem
        · rw [← he] at hc
          cases hc
        · exact hmem)
      have hstop : b = [] ∨ Starts (fun c => isTagSpace c || c == '/') b := by
        match b with
        | [] => exact .inl rfl
        | e :: b =>
          refine .inr ⟨e, b, rfl, ?_⟩
          rcases hends with hnil | ⟨e', b', he, hends⟩
          · cases hnil
          · obtain ⟨rfl, -⟩ := List.cons.inj he
            have hne : e ≠ '>' := fun h => hgt (by simp [h])
            simpa [hne] using hends
      refine ⟨a :: n, b, by rw [← hb]; rfl, hgt, hn, hstop, ?_⟩
      rw [← takeWhile_eq_endTagName hc, hb]
      exact congrArg (fun n => Token.endTag (String.ofList n))
        (takeWhile_letters hletters hstop)
    · obtain ⟨e, d, rfl⟩ := List.exists_cons_of_ne_nil hd
      obtain ⟨rfl, -⟩ := List.cons.inj hgt
      cases hletters '>' (by rw [hd']; simp)

theorem length_closer : (closer name).length = name.length + 2 := by simp [closer]

/-- The end tag of the element, up to the end of its name. -/
theorem walk_closer (hletters : ∀ d ∈ name.map Char.toLower, d.isLower = true) {a : List Char}
    (ha : a ≠ []) (hlower : a.map Char.toLower = (closer name).take a.length)
    (hle : a.length ≤ (closer name).length) :
    walk ⟨s.goto (.rawText (closer name) seen), 0⟩ a =
      ⟨s.goto (if a.length = (closer name).length then .endTag []
        else .rawText (closer name) a.length), 0⟩ := by
  induction a using List.reverseRecOn with
  | nil => exact absurd rfl ha
  | append_singleton a c ih =>
    rw [List.length_append, List.length_singleton, List.take_add_one, List.map_append] at hlower
    rw [List.length_append, List.length_singleton] at hle
    have hlt : a.length < (closer name).length := hle
    obtain ⟨hfront, hlast⟩ := List.append_inj hlower (by simp; omega)
    have hmatch : (closer name)[a.length]? = some c.toLower := by
      rw [List.getElem?_eq_getElem hlt] at hlast ⊢
      simpa using hlast.symm
    rw [walk_append, List.length_append, List.length_singleton]
    by_cases hnil : a = []
    · subst hnil
      obtain rfl : c = '<' := Text.eq_of_toLower_eq (Option.some.inj hmatch).symm rfl
      have hone : ¬ 1 = (closer name).length := by rw [length_closer]; omega
      rw [walk_nil, walk_cons, walk_nil, step_of_ne (by simp)]
      by_cases hseen : seen = 0
      · subst hseen
        simp [step, goto, closer]
      · have := getElem?_closer_ne hletters hseen
        simp [step, goto, this, hone]
    · rw [ih hnil hfront hlt.le, if_neg hlt.ne, walk_cons, walk_nil, step_of_ne (by simp)]
      congr 1
      by_cases hend : a.length + 1 = (closer name).length
      · simp [step, goto, hmatch, hend]
      · simp [step, goto, hmatch, hend]

end RawText

end Scanner

namespace Walker

/-- In content that ends here: nothing follows, or its end tag. -/
structure Closing (w : Walker) (foreign : Nat) (name rest : List Char) : Prop where
  walker : ∃ s : Scanner, ∃ seen,
    w = ⟨s.goto (.rawText (Scanner.closer name) seen), 0⟩ ∧ s.foreign = foreign
  named : name ≠ []
  letters : ∀ c ∈ name.map Char.toLower, c.isLower = true
  not_root : isForeignRoot (String.ofList name) = false
  closes : rest = [] ∨ Scanner.IsCloser name rest

variable {w : Walker} {u rest : List Char} {foreign : Nat}

theorem Closing.endTag {name : List Char} {t : Token} (h : w.Closing foreign name (u ++ rest))
    (ht : t.Written u rest) : ∃ n body, u = '<' :: '/' :: (n ++ body ++ ['>']) ∧ '>' ∉ body ∧
      n.map Char.toLower = name.map Char.toLower ∧
      (body = [] ∨ Starts (fun c => isTagSpace c || c == '/') body) ∧
      t = .endTag (String.ofList n) :=
  Scanner.endTag_of_closes h.named h.letters h.closes ht

/-- The end tag that content ends before is seen, and then the scanner is between two tokens. -/
theorem Closing.crosses {name : List Char} {t : Token} (text : List Char) (start : Nat)
    (h : w.Closing foreign name (u ++ rest)) (ht : t.Written u rest) :
    t.IsEndTag ∧
      (∀ p q, u = p ++ q → p ≠ [] → q ≠ [] →
        (w.walk p).scanner.Sees text [(t, ⟨start, start + byteSize u⟩)] w.scanner.elements
          (start + byteSize p) (q ++ rest)) ∧
      (w.walk u).Outside (t.foreignAfter foreign) rest ∧
      (w.walk u).scanner.elements = w.scanner.elements := by
  obtain ⟨n, body, rfl, hbody, hn, hstop, rfl⟩ := h.endTag ht
  obtain ⟨s, seen, rfl, rfl⟩ := h.walker
  have hlower : ('<' :: '/' :: n).map Char.toLower = Scanner.closer name := by
    rw [List.map_cons, List.map_cons, hn]
    rfl
  have hlength : ('<' :: '/' :: n).length = (Scanner.closer name).length := by
    rw [← hlower, List.length_map]
  have hu : '<' :: '/' :: (n ++ body ++ ['>']) = ('<' :: '/' :: n) ++ (body ++ ['>']) := by simp
  have hend (cs : List Char) (hcs : '>' ∉ cs) :
      walk ⟨s.goto (.rawText (Scanner.closer name) seen), 0⟩ (('<' :: '/' :: n) ++ cs) =
        ⟨s.goto (.endTag cs), 0⟩ := by
    rw [walk_append, Scanner.walk_closer h.letters (by simp)
      (by rw [hlower, hlength, List.take_length]) hlength.le, if_pos hlength]
    exact Scanner.walk_endTag hcs
  refine ⟨trivial, fun p q hpq hp hq => ?_, ?_, ?_⟩
  · have hinside : Inside Token.IsEndTag [(.endTag (String.ofList n),
        ⟨start, start + byteSize ('<' :: '/' :: (n ++ body ++ ['>']))⟩)] (start + byteSize p) :=
      Scanner.inside_of_cut (q := q) trivial hpq hp hq
    rw [hu] at hpq
    rcases Text.cut_cases hpq with ⟨p', hp', rfl⟩ | ⟨d, hd, rfl, hrest⟩
    · -- In the name of the end tag, what follows completes it.
      have hp'' : p.map Char.toLower ++ p'.map Char.toLower = Scanner.closer name := by
        rw [← List.map_append, ← hp', hlower]
      have hmap : (p.map Char.toLower).length = p.length := List.length_map Char.toLower
      have htake : p.map Char.toLower = (Scanner.closer name).take p.length := by
        rw [← hp'', ← hmap, List.take_left]
      have hle : p.length ≤ (Scanner.closer name).length := by
        rw [← hlength, hp', List.length_append]
        exact Nat.le_add_right _ _
      rw [Scanner.walk_closer h.letters hp htake hle]
      split
      · exact hinside
      · intro htorn
        refine absurd ?_ (htorn (mt List.length_eq_zero_iff.1 hp))
        rw [← hp'', ← hmap, List.drop_left, List.append_assoc, List.map_append]
        exact List.prefix_append _ _
    · obtain ⟨q', rfl, -⟩ := Text.exists_of_append_singleton hrest hq
      rw [hend d fun h => hbody (List.mem_append_left _ h)]
      exact hinside
  · have hleave : (s.goto (.endTag body)).step '>' = s.goto .text := by
      have hname : body.takeWhile (fun c => !(isTagSpace c || c == '/')) = [] :=
        Scanner.takeWhile_letters (n := []) (by simp) hstop
      have hroot : isForeignRoot (String.ofList []) = false := by
        rw [isForeignRoot, Text.toLower_ofList]
        decide
      simp only [Scanner.step, Scanner.goto, Scanner.leave, if_true, hname, hroot]
      rfl
    have hforeign : (Token.endTag (String.ofList n)).foreignAfter s.foreign = s.foreign := by
      rw [Token.foreignAfter, isForeignRoot_congr hn, h.not_root]
      rfl
    rw [hu, ← List.append_assoc, walk_append, hend body hbody, walk_cons, walk_nil, step_close,
      hleave, hforeign]
    exact ⟨rfl, rfl, .inl rfl⟩
  · rw [hu, ← List.append_assoc, walk_append, hend body hbody]
    rfl

theorem Closing.next {name : List Char} {start : Nat} {tokens : List (Token × Span)}
    (h : w.Closing foreign name rest) (hrest : Lexed start foreign rest tokens) :
    rest = [] ∨ ∃ t ∈ tokens, t.1.IsEndTag ∧ t.2.start = start := by
  cases hrest with
  | done => exact .inl rfl
  | token ht =>
    obtain ⟨n, body, -, -, -, -, rfl⟩ := h.endTag ht
    exact .inr ⟨_, List.mem_cons_self, trivial, rfl⟩
  | rawText ht =>
    obtain ⟨n, body, -, -, -, -, he⟩ := h.endTag ht
    cases he

end Walker

end Hole

end LiveMarkup
