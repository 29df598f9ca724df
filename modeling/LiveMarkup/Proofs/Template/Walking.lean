import LiveMarkup.Proofs.Markup.Places
import LiveMarkup.Template.Hole
import Mathlib.Data.List.Induction

set_option autoImplicit false

/-!
The scanner of holes, character by character. How it reads a fragment does not depend on where the
fragment is cut, except that an opening comment has to be seen in one piece; a walker that remembers
the beginning of such an opening can be stopped anywhere. Inside a start tag that can be read, the
walker knows the attribute whose value it is in.
-/

namespace LiveMarkup

open Markup
open Text (byteSize isTagSpace)

namespace Hole

/-- A scanner that is stopped between two characters. -/
structure Walker where
  scanner : Scanner
  /-- How much of the `!-` of an opening comment was just seen. -/
  bang : Nat := 0

namespace Walker

def step (w : Walker) (c : Char) : Walker :=
  if w.bang = 2 ∧ c = '-' then ⟨w.scanner.goto (.comment 0), 0⟩
  else if w.bang = 1 ∧ c = '-' then ⟨w.scanner.step c, 2⟩
  else ⟨w.scanner.step c, if w.scanner.state = .tagOpen ∧ c = '!' then 1 else 0⟩

def walk (w : Walker) (cs : List Char) : Walker := cs.foldl step w

theorem walk_nil (w : Walker) : w.walk [] = w := rfl

theorem walk_cons (w : Walker) (c : Char) (cs : List Char) : w.walk (c :: cs) = (w.step c).walk cs :=
  rfl

theorem walk_append (w : Walker) (cs ds : List Char) : w.walk (cs ++ ds) = (w.walk cs).walk ds :=
  List.foldl_append

theorem step_of_ne {s : Scanner} (h : s.state ≠ .tagOpen) (c : Char) :
    step ⟨s, 0⟩ c = ⟨s.step c, 0⟩ := by simp [step, h]

end Walker

namespace Scanner

variable {s : Scanner} {c : Char} {cs : List Char}

theorem step_declaration (h : s.state = .declaration) (hc : c ≠ '>') : s.step c = s := by
  simp [step, h, hc]

/-- A scanner that opens a declaration goes on like one in a declaration, unless both dashes of a
comment follow. -/
theorem walk_bang (h : s.state = .declaration) (hcs : ¬ ['-', '-'] <+: cs) :
    (Walker.walk ⟨s, 1⟩ cs).scanner = (Walker.walk ⟨s, 0⟩ cs).scanner := by
  have hs : s.state ≠ .tagOpen := by simp [h]
  match cs with
  | [] => rfl
  | c :: cs =>
    by_cases hc : c = '-'
    · subst hc
      have hstep : s.step '-' = s := step_declaration h (by decide)
      rw [Walker.walk_cons, Walker.walk_cons, Walker.step_of_ne hs, hstep]
      match cs with
      | [] => simp [Walker.walk_nil, Walker.step, hstep]
      | d :: ds =>
        have hd : d ≠ '-' := fun hd => hcs (by simp [hd])
        simp [Walker.walk_cons, Walker.step, hd, h, hstep]
    · simp [Walker.walk_cons, Walker.step, hc, h]

/-- Feeding a fragment is walking over it. -/
theorem feed_eq_walk (s : Scanner) (cs : List Char) :
    s.feed cs = (Walker.walk ⟨s, 0⟩ cs).scanner := by
  fun_induction s.feed cs with
  | case1 s => rfl
  | case2 s rest hopen ih =>
    rw [ih]
    simp [Walker.walk_cons, Walker.step, hopen, step, goto]
  | case3 s rest hopen ih => rw [ih, Walker.walk_cons _ '!', Walker.step_of_ne hopen]
  | case4 s c cs hnot ih =>
    rw [ih, Walker.walk_cons]
    by_cases hbang : s.state = .tagOpen ∧ c = '!'
    · obtain ⟨hopen, rfl⟩ := hbang
      have hcs : ¬ ['-', '-'] <+: cs := by
        rintro ⟨rest, rfl⟩
        exact hnot rest rfl rfl
      have hstep : Walker.step ⟨s, 0⟩ '!' = ⟨s.step '!', 1⟩ := by simp [Walker.step, hopen]
      rw [hstep, walk_bang (by simp [step, hopen, goto]) hcs]
    · have hstep : Walker.step ⟨s, 0⟩ c = ⟨s.step c, 0⟩ := by
        simp only [Walker.step, if_neg hbang]
        simp
      rw [hstep]

end Scanner

end Hole

namespace Markup

/-- Whether a tag closes itself after an item, by whether it did before. -/
def TagItem.closesAfter (b : Bool) : TagItem → Bool
  | .space => b
  | .slash => true
  | .attribute _ _ => false

theorem TagItem.closes_eq_foldl (items : List TagItem) :
    closes items = items.foldl closesAfter false := by
  induction items using List.reverseRecOn with
  | nil => rfl
  | append_singleton items item ih =>
    rw [List.foldl_append, ← ih, closes, List.reverse_append, List.reverse_singleton,
      List.singleton_append]
    cases item <;> simp [closes, closesAfter]

end Markup

namespace Hole

open Markup.TagPiece (valueSpan valueSpans)

namespace State

/-- What a state says about byte `o` of a start tag with some values, in front of `rest`: `o` is in no
value but those of the attribute, and a word that is written there belongs to one; or `o` is in no
value. -/
def Tells (values : List (String × Span)) (o : Nat) (rest : List Char) : State → Prop
  | .value n _ | .beforeValue n =>
    (∀ v ∈ values, v.2.start ≤ o → o ≤ v.2.stop → v.1 = String.ofList n) ∧
      ∀ m, IsWord m → m <+: rest →
        ∃ span, (String.ofList n, span) ∈ values ∧ span.start ≤ o ∧ o + byteSize m ≤ span.stop
  | .tagName | .beforeName | .name _ | .afterName _ =>
    ∀ v ∈ values, o < v.2.start ∨ v.2.stop < o
  | _ => False

/-- Between two pieces of a start tag, with the characters that follow. -/
def Ready (selfClosing : Bool) (rest : List Char) : State → Prop
  | .tagName => ¬ Starts isWordChar rest
  | .beforeName => True
  | .name _ => ¬ Starts isWordChar rest ∧ selfClosing = false
  | .afterName _ => selfClosing = false
  | .value _ none => (rest = [] ∨ Starts isTagSpace rest) ∧ selfClosing = false
  | _ => False

/-- The state behind a blank. -/
def blank : State → State
  | .name n | .afterName n => .afterName n
  | .beforeValue n => .beforeValue n
  | _ => .beforeName

/-- A state of a start tag that is not in quotes. -/
def Unquoted : State → Prop
  | .tagName | .beforeName | .name _ | .afterName _ | .beforeValue _ | .value _ none => True
  | _ => False

theorem blank_blank (state : State) : state.blank.blank = state.blank := by cases state <;> rfl

theorem unquoted_blank (state : State) : state.blank.Unquoted := by cases state <;> trivial

theorem Ready.unquoted {state : State} {selfClosing : Bool} {rest : List Char}
    (h : state.Ready selfClosing rest) : state.Unquoted := by
  match state with
  | .tagName | .beforeName | .name _ | .afterName _ | .beforeValue _ | .value _ none => trivial
  | .text | .tagOpen | .endTag _ | .value _ (some _) | .comment _ | .declaration | .rawText _ _ =>
    exact h

end State

namespace Scanner

/-- A scanner in a start tag. -/
def inTag (s : Scanner) (state : State) (selfClosing : Bool) : Scanner := { s with state, selfClosing }

/-- A walker in a start tag. -/
def walkTag (s : Scanner) (state : State) (selfClosing : Bool) (cs : List Char) : Walker :=
  Walker.walk ⟨s.inTag state selfClosing, 0⟩ cs

variable {s : Scanner} {state : State} {b : Bool} {n u w : List Char} {c q : Char}

theorem isTagSpace_ne (h : isTagSpace c = true) :
    c ≠ '>' ∧ c ≠ '/' ∧ c ≠ '=' ∧ c ≠ '"' ∧ c ≠ '\'' := by
  simp only [isTagSpace, Bool.or_eq_true, beq_iff_eq] at h
  rcases h with (((rfl | rfl) | rfl) | rfl) | rfl <;> decide

theorem isWordChar_ne (h : isWordChar c = true) :
    isTagSpace c = false ∧ c ≠ '>' ∧ c ≠ '/' ∧ c ≠ '=' ∧ c ≠ '"' ∧ c ≠ '\'' := by
  simpa [isWordChar, and_assoc, and_comm, and_left_comm] using h

theorem isUnquotedChar_ne (h : isUnquotedChar c = true) :
    isTagSpace c = false ∧ c ≠ '>' ∧ c ≠ '"' ∧ c ≠ '\'' := by
  simp only [isUnquotedChar, Bool.or_eq_true, beq_iff_eq] at h
  rcases h with (hw | rfl) | rfl
  · have := isWordChar_ne hw
    simp_all
  · decide
  · decide

theorem walkTag_cons (h : state.Unquoted ∨ ∃ n q, state = .value n (some q)) (cs : List Char) :
    s.walkTag state b (c :: cs) = Walker.walk ⟨(s.inTag state b).step c, 0⟩ cs := by
  rw [walkTag, Walker.walk_cons, Walker.step_of_ne]
  rcases h with h | ⟨n, q, rfl⟩
  · cases state <;> simp_all [inTag, State.Unquoted]
  · simp [inTag]

/-- Blanks between the pieces of a tag. -/
theorem walkTag_space (hu : AllSpace u) (hne : u ≠ []) (hs : state.Unquoted) :
    s.walkTag state b u = ⟨s.inTag state.blank b, 0⟩ := by
  induction u generalizing state with
  | nil => exact absurd rfl hne
  | cons c u ih =>
    have hc := hu c List.mem_cons_self
    have hne' := isTagSpace_ne hc
    have hstep : (s.inTag state b).step c = s.inTag state.blank b := by
      match state with
      | .tagName | .beforeName | .name _ | .afterName _ | .beforeValue _ | .value _ none =>
        simp [inTag, step, goto, State.blank, hc, hne']
      | .text | .tagOpen | .endTag _ | .value _ (some _) | .comment _ | .declaration
      | .rawText _ _ => exact hs.elim
    rw [walkTag_cons (.inl hs), hstep]
    by_cases hnil : u = []
    · rw [hnil, Walker.walk_nil]
    · have := ih (fun d hd => hu d (List.mem_cons_of_mem _ hd)) hnil (State.unquoted_blank state)
      rwa [State.blank_blank] at this

/-- The rest of a word. -/
theorem walkTag_name (hw : ∀ c ∈ w, isWordChar c = true) :
    s.walkTag (.name n) b w = ⟨s.inTag (.name (n ++ w)) b, 0⟩ := by
  induction w generalizing n with
  | nil => simp [walkTag, Walker.walk_nil]
  | cons c w ih =>
    have hc := isWordChar_ne (hw c List.mem_cons_self)
    have hstep : (s.inTag (.name n) b).step c = s.inTag (.name (n ++ [c])) b := by
      simp [inTag, step, goto, hc]
    have hs : (State.name n).Unquoted := trivial
    rw [walkTag_cons (.inl hs), hstep]
    have := ih (n := n ++ [c]) fun d hd => hw d (List.mem_cons_of_mem _ hd)
    rwa [List.append_assoc, List.singleton_append] at this

/-- A word that names an attribute. -/
theorem walkTag_word (hw : ∀ c ∈ w, isWordChar c = true) (hne : w ≠ [])
    (hs : state = .beforeName ∨ b = false ∧ ∃ n, state = .afterName n) :
    s.walkTag state b w = ⟨s.inTag (.name w) false, 0⟩ := by
  obtain ⟨c, w, rfl⟩ := List.exists_cons_of_ne_nil hne
  have hc := isWordChar_ne (hw c List.mem_cons_self)
  have hstep : (s.inTag state b).step c = s.inTag (.name [c]) false := by
    rcases hs with rfl | ⟨rfl, n, rfl⟩ <;> simp [inTag, step, goto, hc]
  have hunquoted : state.Unquoted := by
    rcases hs with rfl | ⟨-, n, rfl⟩ <;> trivial
  rw [walkTag_cons (.inl hunquoted), hstep]
  exact walkTag_name fun d hd => hw d (List.mem_cons_of_mem _ hd)

/-- The rest of an unquoted value. -/
theorem walkTag_unquoted (hw : ∀ c ∈ w, isUnquotedChar c = true) :
    s.walkTag (.value n none) b w = ⟨s.inTag (.value n none) b, 0⟩ := by
  induction w with
  | nil => rfl
  | cons c w ih =>
    have hc := isUnquotedChar_ne (hw c List.mem_cons_self)
    have hstep : (s.inTag (.value n none) b).step c = s.inTag (.value n none) b := by
      simp [inTag, step, hc]
    have hs : (State.value n none).Unquoted := trivial
    rw [walkTag_cons (.inl hs), hstep]
    exact ih fun d hd => hw d (List.mem_cons_of_mem _ hd)

/-- The inside of a quoted value. -/
theorem walkTag_quoted (hq : q ∉ w) :
    s.walkTag (.value n (some q)) b w = ⟨s.inTag (.value n (some q)) b, 0⟩ := by
  induction w with
  | nil => rfl
  | cons c w ih =>
    obtain ⟨hc, hw⟩ := not_or.1 (mt List.mem_cons.2 hq)
    have hstep : (s.inTag (.value n (some q)) b).step c = s.inTag (.value n (some q)) b := by
      simp [inTag, step, Ne.symm hc]
    rw [walkTag_cons (.inr ⟨n, q, rfl⟩), hstep]
    exact ih hw

theorem walkTag_append {v : List Char} {state' : State} {b' : Bool}
    (h : s.walkTag state b u = ⟨s.inTag state' b', 0⟩) :
    s.walkTag state b (u ++ v) = s.walkTag state' b' v := by
  rw [walkTag, Walker.walk_append, ← walkTag, h, walkTag]

/-- From the name of an attribute to its value. -/
theorem walkTag_equals {before after : List Char} (hbefore : AllSpace before)
    (hafter : AllSpace after) :
    s.walkTag (.name n) b (before ++ '=' :: after) = ⟨s.inTag (.beforeValue n) b, 0⟩ := by
  have hequals {state : State} (hs : state = .name n ∨ state = .afterName n) :
      s.walkTag state b ('=' :: after) = ⟨s.inTag (.beforeValue n) b, 0⟩ := by
    have hstep : (s.inTag state b).step '=' = s.inTag (.beforeValue n) b := by
      rcases hs with rfl | rfl <;> rfl
    have hunquoted : state.Unquoted := by rcases hs with rfl | rfl <;> trivial
    rw [walkTag_cons (.inl hunquoted), hstep]
    by_cases hnil : after = []
    · rw [hnil, Walker.walk_nil]
    · have hvalue : (State.beforeValue n).Unquoted := trivial
      exact walkTag_space hafter hnil hvalue
  by_cases hnil : before = []
  · rw [hnil]
    exact hequals (.inl rfl)
  · have hname : (State.name n).Unquoted := trivial
    rw [walkTag_append (walkTag_space hbefore hnil hname)]
    exact hequals (.inr rfl)

/-- Up to the value of an attribute: the equals sign has been read or not. -/
theorem walkTag_head {name before after u v : List Char} (hname : IsWord name)
    (hbefore : AllSpace before) (hafter : AllSpace after)
    (hs : state = .beforeName ∨ b = false ∧ ∃ n, state = .afterName n) (hne : u ≠ [])
    (h : name ++ (before ++ '=' :: after) = u ++ v) :
    (s.walkTag state b u = ⟨s.inTag (.beforeValue name) false, 0⟩ ∧ AllSpace v) ∨
      ((∃ n, s.walkTag state b u = ⟨s.inTag (.name n) false, 0⟩ ∨
        s.walkTag state b u = ⟨s.inTag (.afterName n) false, 0⟩) ∧ v ≠ []) := by
  rcases Text.cut_cases h with ⟨a', rfl, rfl⟩ | ⟨d, hd, rfl, hrest⟩
  · exact .inr ⟨⟨u, .inl (walkTag_word (fun c hc => hname.2 c (List.mem_append_left _ hc)) hne hs)⟩,
      by simp⟩
  · rw [walkTag_append (walkTag_word hname.2 hname.1 hs)]
    rcases Text.cut_cases hrest with ⟨a', rfl, rfl⟩ | ⟨d', hd', rfl, hrest'⟩
    · refine .inr ⟨⟨name, .inr ?_⟩, by simp⟩
      exact walkTag_space (fun c hc => hbefore c (List.mem_append_left _ hc)) hd trivial
    · obtain ⟨c, d, rfl⟩ := List.exists_cons_of_ne_nil hd'
      obtain ⟨rfl, rfl⟩ := List.cons.inj hrest'
      refine .inl ⟨?_, fun c hc => hafter c (List.mem_append_right _ hc)⟩
      exact walkTag_equals hbefore fun c hc => hafter c (List.mem_append_left _ hc)

theorem not_starts_word {rest : List Char} (h : rest = [] ∨ Starts isTagSpace rest) :
    ¬ Starts isWordChar rest := by
  rintro ⟨c, cs, rfl, hc⟩
  obtain hnil | ⟨d, ds, he, hd⟩ := h
  · cases hnil
  · obtain ⟨rfl, -⟩ := List.cons.inj he
    rw [(isWordChar_ne hc).1] at hd
    cases hd

/-- A word does not go over the character behind it. -/
theorem prefix_of_word {m value rest : List Char} (hm : IsWord m) (hrest : ¬ Starts isWordChar rest)
    (h : m <+: value ++ rest) : m <+: value := by
  obtain ⟨t, ht⟩ := h
  rcases Text.cut_cases ht.symm with ⟨a', rfl, -⟩ | ⟨d, hd, rfl, rfl⟩
  · exact List.prefix_append m a'
  · obtain ⟨c, d, rfl⟩ := List.exists_cons_of_ne_nil hd
    exact absurd ⟨c, _, rfl, hm.2 c (by simp)⟩ hrest

theorem not_prefix_of_word {m rest : List Char} (hm : IsWord m) (hrest : ¬ Starts isWordChar rest) :
    ¬ m <+: rest := fun h => hm.1 (List.prefix_nil.1 (prefix_of_word hm hrest h))

/-- Before all values. -/
theorem tells_of_ready {values : List (String × Span)} {o : Nat} {rest : List Char}
    (h : state.Ready b rest) (hv : ∀ v ∈ values, o < v.2.start) : state.Tells values o rest := by
  match state with
  | .tagName | .beforeName | .name _ | .afterName _ => exact fun v hm => .inl (hv v hm)
  | .value n none =>
    refine ⟨fun v hm hstart _ => absurd (hv v hm) (Nat.not_lt.2 hstart), fun m hm hp => ?_⟩
    exact absurd hp (not_prefix_of_word hm (not_starts_word h.1))
  | .text | .tagOpen | .endTag _ | .beforeValue _ | .value _ (some _) | .comment _ | .declaration
  | .rawText _ _ => exact h.elim

/-- Values that do not touch a place change nothing there. -/
theorem State.Tells.append {values : List (String × Span)} (others others' : List (String × Span))
    {o : Nat} {rest : List Char} (h : state.Tells values o rest)
    (hother : ∀ v ∈ others ++ others', o < v.2.start ∨ v.2.stop < o) :
    state.Tells (others ++ values ++ others') o rest := by
  have hcases : ∀ v ∈ others ++ values ++ others', v ∈ values ∨ (o < v.2.start ∨ v.2.stop < o) := by
    intro v hv
    by_cases hmem : v ∈ values
    · exact .inl hmem
    · exact .inr (hother v (by simp_all))
  match state with
  | .value n _ | .beforeValue n =>
    refine ⟨fun v hv hstart hstop => ?_, fun m hm hp => ?_⟩
    · rcases hcases v hv with hmem | hout
      · exact h.1 v hmem hstart hstop
      · omega
    · obtain ⟨span, hmem, hspan⟩ := h.2 m hm hp
      exact ⟨span, by simp [hmem], hspan⟩
  | .tagName | .beforeName | .name _ | .afterName _ =>
    exact fun v hv => (hcases v hv).elim (h v) id
  | .text | .tagOpen | .endTag _ | .comment _ | .declaration | .rawText _ _ => exact h.elim

/-- What follows the characters that follow does not matter if no word goes on there. -/
theorem State.Tells.extend {values : List (String × Span)} {o : Nat} {rest tail : List Char}
    (h : state.Tells values o rest) (htail : ¬ Starts isWordChar tail) :
    state.Tells values o (rest ++ tail) := by
  match state with
  | .value n _ | .beforeValue n => exact ⟨h.1, fun m hm hp => h.2 m hm (prefix_of_word hm htail hp)⟩
  | .tagName | .beforeName | .name _ | .afterName _ => exact h
  | .text | .tagOpen | .endTag _ | .comment _ | .declaration | .rawText _ _ => exact h.elim

theorem ready_word {rest : List Char} (hs : state.Ready b (c :: rest)) (hc : isWordChar c = true) :
    state = .beforeName ∨ b = false ∧ ∃ n, state = .afterName n := by
  have hword : Starts isWordChar (c :: rest) := ⟨c, rest, rfl, hc⟩
  match state with
  | .beforeName => exact .inl rfl
  | .afterName n => exact .inr ⟨hs, n, rfl⟩
  | .tagName => exact absurd hword hs
  | .name _ => exact absurd hword hs.1
  | .value _ none => exact absurd hword (not_starts_word hs.1)
  | .text | .tagOpen | .endTag _ | .beforeValue _ | .value _ (some _) | .comment _ | .declaration
  | .rawText _ _ => exact hs.elim

/-- The value of an attribute, from its first character on. -/
theorem walkTag_value {name before after : List Char} (hname : IsWord name)
    (hbefore : AllSpace before) (hafter : AllSpace after)
    (hs : state = .beforeName ∨ b = false ∧ ∃ n, state = .afterName n) (w : List Char) :
    s.walkTag state b (name ++ (before ++ '=' :: after) ++ w) =
      s.walkTag (.beforeValue name) false w := by
  have hhead : s.walkTag state b (name ++ (before ++ '=' :: after)) =
      ⟨s.inTag (.beforeValue name) false, 0⟩ := by
    rw [walkTag_append (walkTag_word hname.2 hname.1 hs)]
    exact walkTag_equals hbefore hafter
  exact walkTag_append hhead

/-- Up to the value of an attribute, the value is still to come; a word that follows at once belongs
to it. -/
theorem walkTag_toValue {name before after u v : List Char} (value : Span) (tail : List Char)
    (start : Nat) (hname : IsWord name) (hbefore : AllSpace before) (hafter : AllSpace after)
    (hs : state = .beforeName ∨ b = false ∧ ∃ n, state = .afterName n) (hne : u ≠ [])
    (h : name ++ (before ++ '=' :: after) = u ++ v)
    (hvalue : start + byteSize (name ++ (before ++ '=' :: after)) ≤ value.start)
    (htail : ∀ m, IsWord m → m <+: tail →
      value.start = start + byteSize (name ++ (before ++ '=' :: after)) ∧
        value.start + byteSize m ≤ value.stop) :
    ∃ state', s.walkTag state b u = ⟨s.inTag state' false, 0⟩ ∧
      state'.Tells [(String.ofList name, value)] (start + byteSize u) (v ++ tail) := by
  rcases walkTag_head (s := s) hname hbefore hafter hs hne h with ⟨hwalk, hv⟩ | ⟨⟨n, hwalk⟩, hv⟩
  · refine ⟨_, hwalk, fun v hv _ _ => by rw [List.mem_singleton.1 hv], fun m hm hp => ?_⟩
    by_cases hnil : v = []
    · subst hnil
      rw [List.append_nil] at h
      obtain ⟨hstart, hstop⟩ := htail m hm hp
      rw [h] at hstart
      exact ⟨value, List.mem_singleton_self _, hstart.le, hstart ▸ hstop⟩
    · obtain ⟨c, v, rfl⟩ := List.exists_cons_of_ne_nil hnil
      have hspace : Starts isTagSpace (c :: v ++ tail) := ⟨c, v ++ tail, rfl, hv c List.mem_cons_self⟩
      exact absurd hp (not_prefix_of_word hm (not_starts_word (.inr hspace)))
  · have htells : ∀ v ∈ [(String.ofList name, value)],
        start + byteSize u < v.2.start ∨ v.2.stop < start + byteSize u := by
      intro w hw
      obtain rfl := List.mem_singleton.1 hw
      have hpos := Text.byteSize_pos hv
      rw [h, Text.byteSize_append] at hvalue
      exact .inl (by simp only; omega)
    rcases hwalk with hwalk | hwalk <;> exact ⟨_, hwalk, htells⟩

/-- In a value, in front of a part of it that no word leaves. -/
theorem tells_value {name v rest : List Char} {quote : Option Char} {o : Nat} {value : Span}
    (hstart : value.start ≤ o) (hstop : value.stop = o + byteSize v)
    (hrest : ¬ Starts isWordChar rest) :
    (State.value name quote).Tells [(String.ofList name, value)] o (v ++ rest) := by
  refine ⟨fun v hv _ _ => by rw [List.mem_singleton.1 hv], fun m hm hp => ?_⟩
  have := Text.byteSize_le_of_prefix (prefix_of_word hm hrest hp)
  exact ⟨value, List.mem_singleton_self _, hstart, by omega⟩

/-- A scanner that has come to `u` in a piece, in front of `v` and `rest`. -/
def Passes (s : Scanner) (state : State) (b : Bool) (p : TagPiece) (start : Nat)
    (u v rest : List Char) : Prop :=
  ∃ state' b', s.walkTag state b u = ⟨s.inTag state' b', 0⟩ ∧
    state'.Tells (p.valueSpan start).toList (start + byteSize u) (v ++ rest) ∧
    (v = [] → state'.Ready b' rest ∧ b' = TagItem.closesAfter b p.item)

theorem passes_unquoted {name before after value rest v : List Char}
    (hp : (TagPiece.unquoted name before after value).Fits rest)
    (hs : state = .beforeName ∨ b = false ∧ ∃ n, state = .afterName n) (start : Nat) (hne : u ≠ [])
    (h : (TagPiece.unquoted name before after value).chars = u ++ v) :
    s.Passes state b (.unquoted name before after value) start u v rest := by
  obtain ⟨hname, hbefore, hafter, hvalue, hchars, hrest⟩ := hp
  have h : name ++ (before ++ '=' :: after) ++ value = u ++ v := by
    rw [← h]
    simp [TagPiece.chars]
  rcases Text.cut_cases h with ⟨v', hhead, rfl⟩ | ⟨w, hw, rfl, rfl⟩
  · obtain ⟨state', hwalk, htells⟩ := walkTag_toValue (s := s)
      ⟨start + byteSize (name ++ (before ++ '=' :: after)),
        start + byteSize (name ++ (before ++ '=' :: after)) + byteSize value⟩
      (value ++ rest) start hname hbefore hafter hs hne hhead (Nat.le_refl _) fun m hm hp =>
        ⟨rfl, Nat.add_le_add_left
          (Text.byteSize_le_of_prefix (prefix_of_word hm (not_starts_word hrest) hp)) _⟩
    exact ⟨state', false, hwalk, by rwa [List.append_assoc], by simp [hvalue]⟩
  · obtain ⟨c, w, rfl⟩ := List.exists_cons_of_ne_nil hw
    have hc := isUnquotedChar_ne (hchars c (by simp))
    have hstep : (s.inTag (.beforeValue name) false).step c = s.inTag (.value name none) false := by
      simp [inTag, step, goto, hc]
    have hwalk : s.walkTag state b (name ++ (before ++ '=' :: after) ++ c :: w) =
        ⟨s.inTag (.value name none) false, 0⟩ := by
      have hunquoted : (State.beforeValue name).Unquoted := trivial
      rw [walkTag_value hname hbefore hafter hs, walkTag_cons (.inl hunquoted), hstep]
      exact walkTag_unquoted fun d hd => hchars d (by simp [hd])
    refine ⟨_, _, hwalk, tells_value ?_ ?_ (not_starts_word hrest), fun hv => ?_⟩
    · simp only [Text.byteSize_append]
      omega
    · simp only [Text.byteSize_append, Text.byteSize_cons]
      omega
    · exact ⟨⟨hrest, rfl⟩, rfl⟩

theorem passes_quoted {name before after value rest v : List Char} {quote : Char}
    (hp : (TagPiece.quoted name before after quote value).Fits rest)
    (hs : state = .beforeName ∨ b = false ∧ ∃ n, state = .afterName n) (start : Nat) (hne : u ≠ [])
    (h : (TagPiece.quoted name before after quote value).chars = u ++ v) :
    s.Passes state b (.quoted name before after quote value) start u v rest := by
  obtain ⟨hname, hbefore, hafter, hquote, hmem⟩ := hp
  have hword (cs : List Char) : ¬ Starts isWordChar (quote :: cs) := by
    rintro ⟨c, cs, he, hc⟩
    obtain ⟨rfl, -⟩ := List.cons.inj he
    have := isWordChar_ne hc
    simp_all
  have h : name ++ (before ++ '=' :: after) ++ quote :: (value ++ [quote]) = u ++ v := by
    rw [← h]
    simp [TagPiece.chars]
  rcases Text.cut_cases h with ⟨v', hhead, rfl⟩ | ⟨w, hw, rfl, hrest⟩
  · obtain ⟨state', hwalk, htells⟩ := walkTag_toValue (s := s)
      ⟨start + byteSize (name ++ (before ++ '=' :: (after ++ [quote]))),
        start + byteSize (name ++ (before ++ '=' :: (after ++ [quote]))) + byteSize value⟩
      (quote :: (value ++ [quote]) ++ rest) start hname hbefore hafter hs hne hhead
      (by simp only [Text.byteSize_append, Text.byteSize_cons]; omega)
      fun m hm hp => absurd hp (not_prefix_of_word hm (hword _))
    exact ⟨state', false, hwalk, by rwa [List.append_assoc], by simp⟩
  -- Behind the equals sign a quote opens the value.
  obtain ⟨c, w, rfl⟩ := List.exists_cons_of_ne_nil hw
  obtain ⟨rfl, hvalue⟩ := List.cons.inj hrest
  have hopen : ∀ w, s.walkTag state b (name ++ (before ++ '=' :: after) ++ quote :: w) =
      s.walkTag (.value name (some quote)) false w := by
    intro w
    have hunquoted : (State.beforeValue name).Unquoted := trivial
    have hstep : (s.inTag (.beforeValue name) false).step quote =
        s.inTag (.value name (some quote)) false := by
      rcases hquote with rfl | rfl <;> rfl
    rw [walkTag_value hname hbefore hafter hs, walkTag_cons (.inl hunquoted), hstep, walkTag]
  rcases Text.cut_cases hvalue with ⟨v', rfl, rfl⟩ | ⟨d, hd, rfl, hend⟩
  · have hwalk : s.walkTag state b (name ++ (before ++ '=' :: after) ++ quote :: w) =
        ⟨s.inTag (.value name (some quote)) false, 0⟩ := by
      rw [hopen]
      exact walkTag_quoted fun hw => hmem (List.mem_append_left _ hw)
    refine ⟨_, _, hwalk, ?_, by simp⟩
    rw [List.append_assoc v']
    refine tells_value ?_ ?_ (hword rest) <;>
      simp only [Text.byteSize_append, Text.byteSize_cons, Text.byteSize_nil] <;> omega
  · obtain ⟨d, ds, rfl⟩ := List.exists_cons_of_ne_nil hd
    obtain ⟨rfl, hnil⟩ := List.cons.inj hend
    obtain ⟨rfl, rfl⟩ := List.append_eq_nil_iff.1 hnil.symm
    have hwalk : s.walkTag state b (name ++ (before ++ '=' :: after) ++ quote :: (value ++ [quote])) =
        ⟨s.inTag .beforeName false, 0⟩ := by
      have hstep : (s.inTag (.value name (some quote)) false).step quote =
          s.inTag .beforeName false := by simp [inTag, step, goto]
      rw [hopen, walkTag_append (walkTag_quoted hmem), walkTag_cons (.inr ⟨_, _, rfl⟩), hstep,
        Walker.walk_nil]
    refine ⟨_, _, hwalk, fun v hv => ?_, fun _ => ⟨trivial, rfl⟩⟩
    obtain rfl := List.mem_singleton.1 hv
    refine .inr ?_
    have := quote.utf8Size_pos
    simp only [Text.byteSize_append, Text.byteSize_cons, Text.byteSize_nil]
    omega

/-- One piece of a tag, up to any place in it. -/
theorem passes_piece {p : TagPiece} {rest v : List Char} (hp : p.Fits rest)
    (hs : state.Ready b (p.chars ++ rest)) (start : Nat) (hne : u ≠ []) (h : p.chars = u ++ v) :
    s.Passes state b p start u v rest := by
  have hword {name tail : List Char} (hname : IsWord name) (hs : state.Ready b (name ++ tail)) :
      state = .beforeName ∨ b = false ∧ ∃ n, state = .afterName n := by
    obtain ⟨c, name', rfl⟩ := List.exists_cons_of_ne_nil hname.1
    exact ready_word hs (hname.2 c List.mem_cons_self)
  cases p with
  | space blanks =>
    have hu : AllSpace u := fun c hc => hp.2 c (by rw [show blanks = u ++ v from h]; simp [hc])
    have hblank : state.blank.Ready b rest ∧
        state.blank.Tells [] (start + byteSize u) (v ++ rest) := by
      match state with
      | .name _ => exact ⟨hs.2, nofun⟩
      | .afterName _ => exact ⟨hs, nofun⟩
      | .tagName | .beforeName | .value _ none => exact ⟨trivial, nofun⟩
      | .text | .tagOpen | .endTag _ | .beforeValue _ | .value _ (some _) | .comment _
      | .declaration | .rawText _ _ => exact hs.elim
    exact ⟨state.blank, b, walkTag_space hu hne hs.unquoted, hblank.2, fun _ => ⟨hblank.1, rfl⟩⟩
  | slash =>
    obtain ⟨c, u, rfl⟩ := List.exists_cons_of_ne_nil hne
    obtain ⟨rfl, hrest⟩ := List.cons.inj (show '/' :: [] = c :: (u ++ v) from h)
    obtain ⟨rfl, rfl⟩ := List.append_eq_nil_iff.1 hrest.symm
    have hstep : (s.inTag state b).step '/' = s.inTag .beforeName true := by
      match state with
      | .tagName | .beforeName | .name _ | .afterName _ => rfl
      | .value _ none =>
        rcases hs.1 with hnil | ⟨d, ds, he, hd⟩
        · cases hnil
        · obtain ⟨rfl, -⟩ := List.cons.inj he
          cases hd
      | .text | .tagOpen | .endTag _ | .beforeValue _ | .value _ (some _) | .comment _
      | .declaration | .rawText _ _ => exact hs.elim
    exact ⟨.beforeName, true, by rw [walkTag_cons (.inl hs.unquoted), hstep]; rfl, nofun,
      fun _ => ⟨trivial, rfl⟩⟩
  | bare name =>
    have hu : ∀ d ∈ u, isWordChar d = true := fun d hd =>
      hp.1.2 d (by rw [show name = u ++ v from h]; simp [hd])
    exact ⟨.name u, false, walkTag_word hu hne (hword hp.1 hs), nofun,
      fun _ => ⟨⟨hp.2, rfl⟩, rfl⟩⟩
  | unquoted name before after value =>
    rw [Markup.TagPiece.chars, List.append_assoc] at hs
    exact passes_unquoted hp (hword hp.1 hs) start hne h
  | quoted name before after quote value =>
    rw [Markup.TagPiece.chars, List.append_assoc] at hs
    exact passes_quoted hp (hword hp.1 hs) start hne h

/-- The pieces of a tag, up to any place in them. At their end the tag can be closed. -/
theorem walkTag_pieces {pieces : List TagPiece} {cs v : List Char} (hpieces : Spells pieces cs)
    (hs : state.Ready b cs) (start : Nat) (h : cs = u ++ v) :
    ∃ state' b', s.walkTag state b u = ⟨s.inTag state' b', 0⟩ ∧
      state'.Tells (valueSpans start pieces) (start + byteSize u) v ∧
      (v = [] → state'.Ready b' [] ∧ b' = (pieces.map TagPiece.item).foldl TagItem.closesAfter b) := by
  by_cases hne : u = []
  · subst hne
    obtain rfl : cs = v := h
    refine ⟨state, b, rfl, tells_of_ready hs fun v hv => TagPiece.start_lt_of_mem hv, ?_⟩
    rintro rfl
    obtain rfl := hpieces.eq_nil
    exact ⟨hs, rfl⟩
  induction pieces generalizing state b cs u start with
  | nil =>
    obtain rfl : cs = [] := hpieces
    exact absurd (List.append_eq_nil_iff.1 h.symm).1 hne
  | cons p pieces ih =>
    obtain ⟨rest, rfl, hp, hrest⟩ := hpieces
    have hlater : ∀ w ∈ valueSpans (start + byteSize p.chars) pieces,
        start + byteSize p.chars < w.2.start := fun w hw => TagPiece.start_lt_of_mem hw
    rcases Text.cut_cases h with ⟨v', hpiece, rfl⟩ | ⟨w, hw, rfl, rfl⟩
    · obtain ⟨state', b', hwalk, htells, hend⟩ := passes_piece (s := s) hp hs start hne hpiece
      refine ⟨state', b', hwalk, ?_, fun hv => ?_⟩
      · refine State.Tells.append [] _ htells fun w hw => .inl ?_
        have := hlater w hw
        rw [hpiece, Text.byteSize_append] at this
        omega
      · obtain ⟨rfl, rfl⟩ := List.append_eq_nil_iff.1 hv
        obtain ⟨hready, rfl⟩ := hend rfl
        obtain rfl := hrest.eq_nil
        exact ⟨hready, rfl⟩
    · obtain ⟨state₁, b₁, hwalk₁, -, hend⟩ :=
        passes_piece (s := s) hp hs start hp.chars_ne_nil (List.append_nil p.chars).symm
      obtain ⟨hready, rfl⟩ := hend rfl
      obtain ⟨state', b', hwalk, htells, hclose⟩ :=
        ih hrest hready (start + byteSize p.chars) rfl hw
      refine ⟨state', b', by rw [walkTag_append hwalk₁, hwalk], ?_, hclose⟩
      rw [Text.byteSize_append, ← Nat.add_assoc]
      have hbefore := State.Tells.append (p.valueSpan start).toList [] htells fun v hv => .inr ?_
      · rwa [List.append_nil] at hbefore
      · have := (TagPiece.mem_valueSpan (List.append_nil (p.valueSpan start).toList ▸ hv)).2
        have := Text.byteSize_pos hw
        omega

end Scanner

end Hole

end LiveMarkup
