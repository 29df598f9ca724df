import LiveMarkup.Proofs.Part.Listing
import LiveMarkup.Proofs.Part.Nesting

set_option autoImplicit false

/-!
Applying values. Each kind of value comes to what it should if the values inside do, so cutting the
recursion off at any depth gives a correct way to apply values; at the depth that is used, no value
is cut off that ends without the outcome of a deferred one.
-/

namespace LiveMarkup

open Branch (labelsOfAll mapAll)

variable {objects : Objects} {known known' : Registry} {exact blank strict : Bool} {ds : Deferreds}
  {depth : Nat} {w w' : World} {p : NodeId} {before after : List NodeId} {part part' : NodePart}
  {f f' : List (Branch NodeId)} {patch : Patch} {s : Setting} {value : Value}

/-- The outcomes of deferred values are made of what the host made. -/
def Deferreds.Faithful (ds : Deferreds) (objects : Objects) : Prop :=
  ∀ d value, ds.poll d = .fulfilled value → value.Faithful objects

namespace NodePart

theorem Turned.withState (h : Turned objects known known' exact w w' p before after part part' f f')
    {state : NodeState}
    (hf : (part'.withState state).Fits objects known' w'.tree.kind exact f') :
    Turned objects known known' exact w w' p before after part (part'.withState state) f f' :=
  ⟨h.turns, h.stretch, h.start_eq, h.stop_eq, hf⟩

theorem reads_text {forecast : Forecast} {kind : NodeId → NodeKind} {bs : List (Branch NodeKind)}
    {q : Primitive} (hp : part.state = .text q) :
    part.Reads forecast objects known kind exact f bs ↔ Branch.Like exact kind f bs := by
  rw [part.eq_mk, hp]
  rfl

theorem carries_text {look : Look} {shown q : Primitive} (hp : part.state = .text shown)
    (hs : shown = q ∨ shown.same q = true) : part.Carries look strict f (.primitive q) := by
  rw [part.eq_mk, hp]
  exact hs

theorem carries_absent {look : Look} {shown : Primitive} (hp : part.state = .text shown)
    (hs : shown = .null ∨ shown.same .null = true) : part.Carries look strict f .absent := by
  rw [part.eq_mk, hp]
  refine hs.elim id fun hsame => ?_
  cases shown <;> first | rfl | cases hsame

theorem carries_node {look : Look} {shown fragment : Fragment} (hp : part.state = .node shown)
    (hs : shown.identity = fragment.identity) : part.Carries look strict f (.node fragment) := by
  rw [part.eq_mk, hp]
  exact hs

theorem reads_node {forecast : Forecast} {kind : NodeId → NodeKind} {bs : List (Branch NodeKind)}
    {fragment : Fragment} (hp : part.state = .node fragment) :
    part.Reads forecast objects known kind exact f bs ↔ Branch.Like exact kind f bs := by
  rw [part.eq_mk, hp]
  rfl

/-- A value that cannot fail and shows one text. -/
theorem Turned.outcome_text {a : Applied NodePart} {n : NodeId} {shown : Primitive}
    (h : Turned objects known known exact w a.world p before after part a.part f [.node n []])
    (hk : a.world.tree.kind n = .text shown.text) (he : a.error = none) {q : Primitive}
    (hq : a.part.state = .text q) (hc : ∀ look : Look, a.part.Carries look strict [.node n []] value)
    (hd : ∀ look forecast,
      value.foresee look strict forecast = some [.node (.text shown.text) []]) :
    ∃ known' f', Outcome objects known known' exact blank strict ds depth w p before after part f f'
      value a := by
  exact ⟨known, [.node n []], h, fun _ _ look forecast _ _ =>
    ⟨_, hd look forecast, (reads_text hq).2 (.of_eq (by simp [hk]))⟩, fun _ _ _ _ _ => he,
    fun _ look _ => hc look⟩

/-- What waits for a deferred value will show what comes of that. -/
theorem reads_waiting {forecast : Forecast} {kind : NodeId → NodeKind} {d : DeferredId}
    (hd : forecast d ≠ .gone) {standIn : Option (List (Branch NodeKind))}
    {bs : List (Branch NodeKind)} (hs : standIn = some bs) (hl : Branch.Like exact kind f bs) :
    ∃ cs, (forecast d).inPlaceOf standIn = some cs ∧
      (part.withState (.pending d)).Reads forecast objects known kind exact f cs := by
  cases hf : forecast d with
  | stays =>
    refine ⟨bs, hs, ?_⟩
    rw [withState, Reads, hf]
    exact hl
  | becomes cs =>
    refine ⟨cs, rfl, ?_⟩
    rw [withState, Reads, hf]
  | gone => exact absurd hf hd

theorem fits_pending {kind : NodeId → NodeKind} {d : DeferredId} :
    (part.withState (.pending d)).Fits objects known kind exact f := trivial

end NodePart

open NodePart (Outcome Region)

/-- A deferred value is waited for. -/
theorem NodePart.Region.pending (h : part.Region objects known exact w p before after f)
    (hready : part.Ready exact blank f) (d : DeferredId) :
    Outcome objects known known exact blank strict ds depth w p before after part f f (.pending d)
      { part := part.withState (.pending d), world := w } := by
  refine ⟨h.turned_refl rfl rfl rfl rfl NodePart.fits_pending,
    fun _ hplain look forecast _ hforesee => ?_, fun _ _ _ _ _ => rfl,
    fun _ _ _ => NodePart.carries_pending⟩
  have he : blank = true := by
    cases blank with
    | true => rfl
    | false => simpa [Value.deferreds] using hplain.2 rfl
  rw [(hready.empty he).2]
  exact NodePart.reads_waiting (hforesee d List.mem_cons_self) (rfl : some [] = some []) rfl

namespace Patch

/-- What a part shows until a deferred value settles. -/
def standIn (patch : Patch) (s : Setting) (w : World) (part : NodePart) (d : DeferredId)
    (shown : Value) : Applied NodePart :=
  let applied := patch (s.holding [.pending d]) w part shown
  match applied.error with
  | some _ => applied
  | none => applied.map fun p => p.withState (.pending d)

theorem placeholder_waits {d : DeferredId} (hstate : part.state = .pending d) (shown : Value) :
    placeholder patch s w part d shown = { part, world := w.report .stillWaiting } := by
  simp [placeholder, hstate]

theorem placeholder_new {d : DeferredId} (hstate : part.state ≠ .pending d) (shown : Value) :
    placeholder patch s w part d shown =
      match s.deferreds.poll d with
      | .fulfilled value => patch (s.holding [.pending d, shown]) w part value
      | _ => standIn patch s w part d shown := by
  cases hs : part.state with
  | pending current =>
    have hne : current ≠ d := fun he => hstate (he ▸ hs)
    simp only [placeholder, hs, beq_eq_false_iff_ne.2 hne, Bool.false_eq_true, if_false]
    rfl
  | _ =>
    simp only [placeholder, hs, Bool.false_eq_true, if_false]
    rfl

/-- What stands in for a deferred value is shown. -/
theorem Correct.standIn (hp : patch.Correct objects exact strict ds depth)
    (hds : s.deferreds = ds) (hstrict : s.strictValueCount = strict)
    (h : part.Region objects known exact w p before after f) (d : DeferredId) {shown : Value}
    (hshown : shown.Faithful objects) (hready : part.Ready exact blank f) :
    ∃ known' f', Outcome objects known known' exact blank strict ds (depth + 1) w p before after part
      f f' (.placeholder d shown) (Patch.standIn patch s w part d shown) := by
  obtain ⟨known', f', ho⟩ := hp (s := s.holding [.pending d]) hds hstrict h hshown blank hready
  obtain ⟨a, ha⟩ : ∃ a, a = patch (s.holding [.pending d]) w part shown := ⟨_, rfl⟩
  rw [← ha] at ho
  have hsucceeds (hr : (Value.placeholder d shown).Reached (depth + 1))
      (hout : (Value.placeholder d shown).Outstanding ds) (look : Look)
      (hlook : look.Yields objects w.cache)
      (hne : (Value.placeholder d shown).denote look strict ≠ none) : a.error = none := by
    refine ho.succeeds (.inl ?_) (fun e he => hout e (List.mem_cons_of_mem _ he)) look hlook hne
    rcases hr with hlt | ⟨hnull, -⟩
    · simpa [Value.weight] using hlt
    · cases hnull
  cases herror : a.error with
  | some e =>
    have heq : Patch.standIn patch s w part d shown = a := by
      simp only [Patch.standIn, ← ha, herror]
    rw [heq]
    exact ⟨known', f', ho.turned, fun he => absurd (herror.symm.trans he) (by simp), hsucceeds,
      fun _ _ _ => NodePart.carries_placeholder⟩
  | none =>
    have heq : Patch.standIn patch s w part d shown = a.map fun p => p.withState (.pending d) := by
      simp only [Patch.standIn, ← ha, herror]
    rw [heq]
    refine ⟨known', f', ho.turned.withState NodePart.fits_pending,
      fun _ hplain look forecast hlook hforesee => ?_, fun _ _ _ _ _ => herror,
      fun _ _ _ => NodePart.carries_placeholder⟩
    -- Nothing waits inside what stands in, so that is shown as it is now.
    obtain ⟨bs, hbs, hread⟩ := ho.reads herror
      ⟨fun e he => hplain.1 e (List.mem_cons_of_mem _ he), fun he => by
        simpa [Value.deferreds] using hplain.2 he⟩ look .still hlook (Value.foreseeable_still shown)
    exact NodePart.reads_waiting (hforesee d List.mem_cons_self)
      ((Value.foresee_still shown).symm.trans hbs) (hread.like Forecast.final_still)

/-- What stands in for a deferred value is shown, unless the value is there or is waited for. -/
theorem Correct.placeholder (hp : patch.Correct objects exact strict ds depth)
    (hfaithful : ds.Faithful objects) (hds : s.deferreds = ds) (hstrict : s.strictValueCount = strict)
    (h : part.Region objects known exact w p before after f) {d : DeferredId} {shown : Value}
    (hshown : shown.Faithful objects) (hready : part.Ready exact blank f) :
    ∃ known' f', Outcome objects known known' exact blank strict ds (depth + 1) w p before after part
      f f' (.placeholder d shown) (Patch.placeholder patch s w part d shown) := by
  by_cases hwaits : part.state = .pending d
  · rw [placeholder_waits hwaits]
    refine ⟨known, f, h.turned_refl rfl rfl rfl rfl h.fits, fun _ hplain _ _ _ _ => ?_,
      fun _ _ _ _ _ => rfl, fun _ _ _ => NodePart.carries_placeholder⟩
    cases blank with
    | true =>
      have hempty := (hready.empty rfl).1
      rw [hwaits] at hempty
      cases hempty
    | false => simpa [Value.deferreds] using hplain.2 rfl
  rw [placeholder_new hwaits]
  cases hpoll : s.deferreds.poll d with
  | fulfilled value =>
    -- The outcome takes the place of what stands in, so nothing is said about that.
    have hpoll' : ds.poll d = .fulfilled value := hds ▸ hpoll
    obtain ⟨known', f', ho⟩ := hp (s := s.holding [.pending d, shown]) hds hstrict h
      (hfaithful d value hpoll') blank hready
    have hthere : ¬(Value.placeholder d shown).Outstanding ds :=
      fun hout => hout d List.mem_cons_self value hpoll'
    exact ⟨known', f', ho.turned, fun _ hplain => absurd hplain.1 hthere,
      fun _ hout => absurd hout hthere, fun _ _ _ => NodePart.carries_placeholder⟩
  | waiting | rejected => exact hp.standIn hds hstrict h d hshown hready

theorem Correct.step (hp : patch.Correct objects exact strict ds depth)
    (hfaithful : ds.Faithful objects) :
    (Patch.step patch).Correct objects exact strict ds (depth + 1) := by
  intro s known w p before after part f value hds hstrict h hvalue blank hready
  match value with
  | .primitive q =>
    obtain ⟨n, ht, hk, he⟩ := h.setPrimitive q
    obtain ⟨shown, hstate, hsame⟩ := part.state_setPrimitive w q
    exact ht.outcome_text hk he hstate (fun _ => NodePart.carries_text hstate hsame) fun _ _ => rfl
  | .template strings values kind =>
    exact hp.template hds hstrict h (r := ⟨strings, values, kind⟩) hvalue hready
  | .iterable values => exact h.iterable hp hds hstrict (Value.faithfulAll_iff.1 hvalue) hready
  | .node fragment =>
    obtain ⟨f', ht, hk, he⟩ := h.setNode hvalue
    obtain ⟨shown, hstate, hid⟩ := part.state_setNode w fragment
    exact ⟨known, f', ht, fun _ _ look forecast _ _ =>
      ⟨_, rfl, (NodePart.reads_node hstate).2 (.of_eq hk)⟩, fun _ _ _ _ _ => he,
      fun _ _ _ => NodePart.carries_node hstate hid⟩
  | .pending d => exact ⟨known, f, h.pending hready d⟩
  | .placeholder d shown => exact hp.placeholder hfaithful hds hstrict h hvalue hready
  | .absent =>
    obtain ⟨n, ht, hk, he⟩ := h.setPrimitive .null
    obtain ⟨shown, hstate, hsame⟩ := part.state_setPrimitive w .null
    exact ht.outcome_text hk he hstate (fun _ => NodePart.carries_absent hstate hsame) fun _ _ => rfl
  | .display object =>
    obtain ⟨n, ht, hk⟩ := h.setText (.str object.text)
    exact ht.outcome_text hk rfl rfl (fun _ => NodePart.carries_display) fun _ _ => rfl

/-- Cut off at any depth, applying values is correct. -/
theorem correct_within (hfaithful : ds.Faithful objects) (depth : Nat) :
    (Patch.within depth).Correct objects exact strict ds depth := by
  induction depth with
  | zero =>
    intro s known w p before after part f value _ _ h _ blank _
    refine ⟨known, f, h.turned_refl rfl rfl rfl rfl h.fits, fun he => (by cases he), fun hr => ?_,
      fun he => by cases he⟩
    rcases hr with hlt | ⟨-, hlt⟩ <;> omega
  | succ depth ih => exact ih.step hfaithful

end Patch

/-- Giving a part a value is one step of the recursion, which leaves more depth than any outcome
needs. -/
theorem NodePart.exists_setValue_step (s : Setting) (w : World) (part : NodePart) (value : Value) :
    ∃ depth, 2 * s.deferreds.weight < depth ∧
      part.setValue s w value = Patch.step (.within depth) s w part value := by
  obtain ⟨depth, hdepth⟩ : ∃ depth, Patch.depthFor s part.depth value.weight = depth + 1 :=
    Nat.exists_eq_add_one.2 (Nat.mul_pos (by omega) (by omega))
  have hle : 2 * (value.weight + s.deferreds.weight + 1) ≤ depth + 1 :=
    hdepth ▸ Nat.mul_le_mul_right _ (by omega)
  refine ⟨depth, by omega, ?_⟩
  rw [setValue, hdepth]
  rfl

/-- Cut off at any depth, a part in its region is given a value as it should be. -/
theorem NodePart.Region.outcome (h : part.Region objects known false w p before after f)
    (hs : s.deferreds.Faithful objects) (hvalue : value.Faithful objects) (depth : Nat) :
    ∃ known' f', NodePart.Outcome objects known known' false false s.strictValueCount s.deferreds
      depth w p before after part f f' value (Patch.within depth s w part value) :=
  Patch.correct_within hs depth rfl rfl h hvalue false ⟨by simp, by simp⟩

end LiveMarkup
