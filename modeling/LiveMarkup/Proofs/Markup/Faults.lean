import LiveMarkup.Proofs.Markup.Lexed

set_option autoImplicit false

/-!
Where errors are reported. The place of every error lies in the markup that was scanned, and one in a
start tag lies between the brackets of that tag.
-/

namespace LiveMarkup.Markup

open LiveMarkup.Text

/-- A place between two bytes. -/
structure Span.Within (start stop : Nat) (span : Span) : Prop where
  start_le : start ≤ span.start
  le : span.start ≤ span.stop
  le_stop : span.stop ≤ stop

namespace Span.Within

variable {start start' stop stop' : Nat} {span : Span}

theorem mono (h : span.Within start stop) (hstart : start' ≤ start) (hstop : stop ≤ stop') :
    span.Within start' stop' :=
  ⟨Nat.le_trans hstart h.1, h.2, Nat.le_trans h.3 hstop⟩

theorem later (h : span.Within start stop) (bytes : Nat) :
    (span.later bytes).Within (start + bytes) (stop + bytes) :=
  ⟨Nat.add_le_add_right h.1 _, Nat.add_le_add_right h.2 _, Nat.add_le_add_right h.3 _⟩

theorem earlier (h : span.Within start stop) (bytes : Nat) :
    (span.earlier bytes).Within (start - bytes) (stop - bytes) :=
  ⟨Nat.sub_le_sub_right h.1 _, Nat.sub_le_sub_right h.2 _, Nat.sub_le_sub_right h.3 _⟩

/-- Behind the first `bytes` nothing is lost by moving to the beginning. -/
theorem later_earlier {e : SyntaxError} {bytes : Nat} (h : e.span.Within bytes stop) :
    (e.earlier bytes).later bytes = e := by
  obtain ⟨⟨first, last⟩, fault⟩ := e
  obtain ⟨hfirst, hle, -⟩ := h
  simp only at hfirst hle
  simp only [SyntaxError.later, SyntaxError.earlier, Span.later, Span.earlier,
    Nat.sub_add_cancel hfirst, Nat.sub_add_cancel (Nat.le_trans hfirst hle)]

end Span.Within

theorem byteSize_le_of_suffix {cs cs' : List Char} (h : cs <:+ cs') : byteSize cs ≤ byteSize cs' := by
  obtain ⟨u, rfl⟩ := h
  rw [byteSize_append]
  exact Nat.le_add_left _ _

theorem TagLexeme.suffix_next (c : Char) (cs : List Char) : (TagLexeme.next c cs).2 <:+ cs := by
  unfold TagLexeme.next
  split
  · exact List.dropWhile_suffix _
  split
  · exact List.suffix_refl _
  split
  · exact List.suffix_refl _
  split
  · split
    · next value rest hbreak => exact ⟨_, append_of_breakOn hbreak⟩
    · exact List.nil_suffix
  split
  · exact List.suffix_refl _
  · exact List.dropWhile_suffix _

/-- The pieces of a tag lie in the tag. -/
theorem TagLexeme.within_scan {start : Nat} {cs : List Char} :
    ∀ p ∈ TagLexeme.scan start cs, p.2.Within start (start + byteSize cs) := by
  fun_induction TagLexeme.scan start cs with
  | case1 start => nofun
  | case2 start c cs piece stop ih =>
    have hle : byteSize piece.2 ≤ byteSize (c :: cs) :=
      byteSize_le_of_suffix ((suffix_next c cs).trans (List.suffix_cons c cs))
    have hstop : stop = start + (byteSize (c :: cs) - byteSize piece.2) := rfl
    refine List.forall_mem_cons.2
      ⟨⟨Nat.le_refl _, by simp only; omega, by simp only; omega⟩, fun p hp => ?_⟩
    exact (ih p hp).mono (by omega) (by omega)

theorem suffix_unquotedPieces (ts : List Placed) : (unquotedPieces ts).2 <:+ ts := by
  induction ts with
  | nil => exact List.suffix_refl _
  | cons t ts ih =>
    rw [unquotedPieces]
    split
    · exact ih.trans (List.suffix_cons t ts)
    · exact List.suffix_refl _

theorem AttributeTail.suffix_rest {ts rest : List Placed} {text : String}
    (h : AttributeTail.read ts = .value text rest) : rest <:+ ts := by
  have hskip (ts : List Placed) : skipSpaces ts <:+ ts := List.dropWhile_suffix _
  unfold AttributeTail.read at h
  split at h
  · next span afterEquals hequals =>
    have hafter : skipSpaces afterEquals <:+ ts :=
      (hskip _).trans ((List.suffix_cons _ _).trans (hequals ▸ hskip ts))
    split at h
    · next hquoted =>
      obtain ⟨-, rfl⟩ := AttributeTail.value.inj h
      exact (List.suffix_cons _ _).trans (hquoted ▸ hafter)
    · next first more _ hfirst =>
      obtain ⟨-, rfl⟩ := AttributeTail.value.inj h
      exact (suffix_unquotedPieces _).trans (hfirst ▸ hafter)
    · cases h
  · cases h

/-- The grammar reports a token, or the end of the tag. -/
theorem TagItem.place_of_read {size : Nat} {bare : Bool} {ts : List Placed} {e : SyntaxError}
    (h : TagItem.read size bare ts = .error e) :
    e.span = ⟨size, size⟩ ∨ ∃ t ∈ ts, e.span = t.2 := by
  have hmap {α β ε : Type} {f : α → β} {x : Except ε α} {e : ε} (h : x.map f = .error e) :
      x = .error e := by
    cases x with
    | ok a => cases h
    | error e' =>
      obtain rfl := Except.error.inj h
      rfl
  fun_induction TagItem.read size bare ts with
  | case1 => cases h
  | case2 bare span ts ih | case3 bare span ts ih =>
    exact (ih (hmap h)).imp id (.imp fun _ => .imp_left (List.mem_cons_of_mem _))
  | case4 bare name span ts htail ih =>
    exact (ih (hmap h)).imp id (.imp fun _ => .imp_left (List.mem_cons_of_mem _))
  | case5 bare name span ts text rest htail ih =>
    exact (ih (hmap h)).imp id (.imp fun _ => .imp_left fun ht =>
      List.mem_cons_of_mem _ ((AttributeTail.suffix_rest htail).subset ht))
  | case6 =>
    obtain rfl := Except.error.inj h
    exact .inl rfl
  | case7 bare found span ts =>
    obtain rfl := Except.error.inj h
    exact .inr ⟨_, List.mem_cons_self, rfl⟩

namespace StartTag

theorem place_of_ofTokens {size : Nat} {ts : List Placed} {e : SyntaxError}
    (h : ofTokens size ts = .error e) : e.span = ⟨size, size⟩ ∨ ∃ t ∈ ts, e.span = t.2 := by
  unfold ofTokens at h
  split at h
  · next name span ts =>
    cases hread : TagItem.read size false ts with
    | ok items =>
      rw [hread] at h
      cases h
    | error e' =>
      rw [hread] at h
      obtain rfl := Except.error.inj h
      exact (TagItem.place_of_read hread).imp id fun ⟨t, ht, he⟩ =>
        ⟨t, List.mem_cons_of_mem _ ht, he⟩
  · obtain rfl := Except.error.inj h
    exact .inr ⟨_, List.mem_cons_self, rfl⟩
  · obtain rfl := Except.error.inj h
    exact .inl rfl

theorem within_parse {interior : String} {errors : List SyntaxError}
    (h : parse interior = .error errors) :
    ∀ e ∈ errors, e.span.Within 0 (byteSize interior.toList) := by
  have hsize : interior.utf8ByteSize = byteSize interior.toList := byteSize_toList interior |>.symm
  have hpieces : ∀ p ∈ TagLexeme.scan 0 interior.toList,
      p.2.Within 0 (0 + byteSize interior.toList) := TagLexeme.within_scan
  rw [Nat.zero_add] at hpieces
  unfold parse at h
  simp only at h
  intro e he
  split at h
  · cases hread : ofTokens interior.utf8ByteSize _ with
    | ok tag =>
      rw [hread] at h
      cases h
    | error e' =>
      rw [hread] at h
      obtain rfl := Except.error.inj h
      obtain rfl := List.mem_singleton.1 he
      rcases place_of_ofTokens hread with hplace | ⟨⟨token, span⟩, ht, hplace⟩
      · rw [hplace, hsize]
        exact ⟨Nat.zero_le _, Nat.le_refl _, Nat.le_refl _⟩
      · obtain ⟨⟨piece, span'⟩, hp, hsome⟩ := List.mem_filterMap.1 ht
        cases piece with
        | token token' =>
          obtain ⟨-, rfl⟩ := Prod.mk.inj (Option.some.inj hsome)
          exact hplace ▸ hpieces _ hp
        | openQuote | stray => cases hsome
  · obtain rfl := Except.error.inj h
    obtain ⟨⟨piece, span⟩, hp, hsome⟩ := List.mem_filterMap.1 he
    obtain ⟨fault, -, rfl⟩ := Option.map_eq_some_iff.1 hsome
    exact hpieces _ hp

theorem within_parseAt {offset : Nat} {interior : List Char} {errors : List SyntaxError}
    (h : parseAt offset (String.ofList interior) = .error errors) :
    ∀ e ∈ errors, e.span.Within offset (offset + byteSize interior) := by
  unfold parseAt at h
  cases hparse : parse (String.ofList interior) with
  | ok tag =>
    rw [hparse] at h
    cases h
  | error errors' =>
    rw [hparse] at h
    obtain rfl := Except.error.inj h
    intro e he
    obtain ⟨e', he', rfl⟩ := List.mem_map.1 he
    have hwithin := (within_parse hparse e' he').later offset
    rw [String.toList_ofList] at hwithin
    exact hwithin.mono (by omega) (by omega)

end StartTag

theorem Lexeme.byteSize_next (c : Char) (cs : List Char) :
    byteSize (next c cs).2 ≤ byteSize (c :: cs) := by
  obtain ⟨u, hu, -⟩ := reads_next c cs
  rw [hu, byteSize_append]
  exact Nat.le_add_left _ _

/-- A start tag is as long as what stands between its brackets, and these. -/
theorem Lexeme.byteSize_startTag {c : Char} {cs interior : List Char}
    (h : (next c cs).1 = .startTag interior) :
    byteSize (c :: cs) = byteSize interior + 2 + byteSize (next c cs).2 := by
  obtain ⟨u, hu, hreads⟩ := reads_next c cs
  rw [h] at hreads
  have hopen : Char.utf8Size '<' = 1 := rfl
  have hclose : Char.utf8Size '>' = 1 := rfl
  rw [hu, hreads.1]
  simp only [byteSize_append, byteSize_cons, byteSize_nil]
  omega

/-- Errors lie in the markup that is scanned. -/
theorem Lexing.within_scan {start foreign : Nat} {cs : List Char} :
    ∀ e ∈ (scan start foreign cs).errors, e.span.Within start (start + byteSize cs) := by
  have hrest {start stop : Nat} {c : Char} {cs : List Char} {errors : List SyntaxError}
      (hstop : stop = start + (byteSize (c :: cs) - byteSize (Lexeme.next c cs).2))
      (h : ∀ e ∈ errors, e.span.Within stop (stop + byteSize (Lexeme.next c cs).2)) :
      ∀ e ∈ errors, e.span.Within start (start + byteSize (c :: cs)) := by
    have hle := Lexeme.byteSize_next c cs
    exact fun e he => (h e he).mono (by omega) (by omega)
  fun_induction Lexing.scan start foreign cs with
  | case1 => exact fun _ he => absurd he List.not_mem_nil
  | case2 start foreign c cs lexeme rest stop span content hlexeme ih
  | case3 start foreign c cs lexeme rest stop span content hlexeme ih
  | case4 start foreign c cs lexeme rest stop span name hlexeme ih => exact hrest rfl ih
  | case5 start foreign c cs lexeme rest stop span name hlexeme name' ih => exact hrest rfl ih
  | case6 start foreign c cs lexeme rest stop span what hlexeme ih =>
    have hle := Lexeme.byteSize_next c cs
    refine List.forall_mem_cons.2 ⟨?_, hrest rfl ih⟩
    exact ⟨Nat.le_refl _, Nat.le_add_right _ _, Nat.add_le_add_left (Nat.sub_le _ _) _⟩
  | case7 start foreign c cs lexeme rest stop interior hlexeme errors hparse ih =>
    refine List.forall_mem_append.2 ⟨fun e he => ?_, hrest rfl ih⟩
    have hsize := Lexeme.byteSize_startTag hlexeme
    exact (StartTag.within_parseAt hparse e he).mono (by omega) (by omega)
  | case8 start foreign c cs lexeme rest stop span interior hlexeme tag hparse foreign' hmode ih =>
    exact hrest rfl ih
  | case9 start foreign c cs lexeme rest stop span interior hlexeme tag hparse foreign' mode hmode
      broken after tail tail' ih =>
    have htail : tail'.errors = tail.errors := by
      simp only [tail']
      split <;> rfl
    have hbroken : byteSize broken.1 + byteSize broken.2 = byteSize rest := by
      rw [← byteSize_append]
      exact congrArg byteSize (append_breakAtEndTag tag.name.toList rest)
    refine hrest rfl fun e he => (ih e (htail ▸ he)).mono (Nat.le_add_right _ _) ?_
    change stop + byteSize broken.1 + byteSize broken.2 ≤ stop + byteSize rest
    omega

end LiveMarkup.Markup
