import LiveMarkup.Proofs.Part.Carrying
import LiveMarkup.Proofs.Part.Reading
import LiveMarkup.Proofs.Part.Standing

set_option autoImplicit false

/-!
What it means to apply a value to a region. The part says afterwards what is in the region, whether
or not there was an error; without one the region will show what the value is foreseen to show, and
the part carries the value; and a value that has a denotation by the templates that can be had is
applied without an error.
-/

namespace LiveMarkup

open Branch (labelsOfAll mapAll)

namespace Value

/-- No deferred value in a value is fulfilled. -/
def Outstanding (ds : Deferreds) (v : Value) : Prop :=
  ∀ d ∈ v.deferreds, ∀ outcome, ds.poll d ≠ .fulfilled outcome

/-- A value decides what is shown: none of its deferred values is fulfilled, and it has none at all
where something was shown before. -/
def Plain (blank : Bool) (ds : Deferreds) (v : Value) : Prop :=
  v.Outstanding ds ∧ (blank = false → v.deferreds = [])

/-- All deferred values in a value are still waited for. -/
def Foreseeable (forecast : Forecast) (v : Value) : Prop := ∀ d ∈ v.deferreds, forecast d ≠ .gone

/-- A value ends within a depth. -/
def Reached (depth : Nat) (v : Value) : Prop := v.weight < depth ∨ v.isNull = true ∧ 0 < depth

/-- A value with its branches. -/
def meaning (look : Look) (strict : Bool) (v : Value) : Meaning := ⟨v, v.denote look strict⟩

variable {ds : Deferreds} {blank : Bool} {forecast : Forecast} {look : Look} {strict : Bool}

theorem plain_of_nil {v : Value} (h : v.deferreds = []) : v.Plain blank ds :=
  ⟨by simp [Outstanding, h], fun _ => h⟩

theorem plain_null : null.Plain blank ds := plain_of_nil rfl

theorem foreseeable_of_nil {v : Value} (h : v.deferreds = []) : v.Foreseeable forecast :=
  fun d hd => by rw [h] at hd; cases hd

theorem foreseeable_null : null.Foreseeable forecast := foreseeable_of_nil rfl

theorem foreseeable_still (v : Value) : v.Foreseeable .still := fun _ _ h => by cases h

theorem meaning_null : null.meaning look strict = .ofNull := rfl

theorem foreseen_null : null.foreseen look strict forecast = .ofNull := rfl

theorem outstanding_null : null.Outstanding ds := fun d hd => by cases hd

theorem reached_null {depth : Nat} (h : 0 < depth) : null.Reached depth := .inr ⟨rfl, h⟩

theorem deferreds_of_mem {vs : List Value} {v : Value} (hv : v ∈ vs) {d : DeferredId}
    (hd : d ∈ v.deferreds) : d ∈ deferredsOfAll vs := by
  induction vs with
  | nil => cases hv
  | cons u vs ih =>
    rw [deferredsOfAll, List.mem_append]
    rcases List.mem_cons.1 hv with rfl | hv
    · exact .inl hd
    · exact .inr (ih hv)

theorem weight_le_weights {vs : List Value} {v : Value} (hv : v ∈ vs) : v.weight ≤ weights vs := by
  induction vs with
  | nil => cases hv
  | cons u vs ih =>
    rw [weights]
    rcases List.mem_cons.1 hv with rfl | hv
    · omega
    · have := ih hv
      omega

/-- What holds of a value's deferred values holds of those of the values inside. -/
theorem outstanding_of_mem {vs : List Value}
    (h : ∀ d ∈ deferredsOfAll vs, ∀ outcome, ds.poll d ≠ .fulfilled outcome) {v : Value}
    (hv : v ∈ vs) : v.Outstanding ds :=
  fun d hd => h d (deferreds_of_mem hv hd)

theorem plain_of_mem {vs : List Value}
    (h : ∀ d ∈ deferredsOfAll vs, ∀ outcome, ds.poll d ≠ .fulfilled outcome)
    (he : blank = false → deferredsOfAll vs = []) {v : Value} (hv : v ∈ vs) : v.Plain blank ds :=
  ⟨outstanding_of_mem h hv, fun hx => List.eq_nil_iff_forall_not_mem.2 fun d hd => by
    have hm := deferreds_of_mem hv hd
    rw [he hx] at hm
    cases hm⟩

end Value

namespace Slots

/-- All values that are left have a property. -/
def All (P : Value → Prop) (slots : Slots) : Prop := ∀ v, some v ∈ slots → P v

variable {P : Value → Prop} {slots : Slots}

theorem All.take (h : slots.All P) (hn : P .null) (i : Nat) :
    P (slots.take i).1 ∧ (slots.take i).2.All P := by
  constructor
  · rw [Slots.take]
    match hi : slots[i]? with
    | some (some v) => exact h v (List.mem_of_getElem? hi)
    | some none => exact hn
    | none => exact hn
  · intro v hv
    rcases List.mem_or_eq_of_mem_set hv with hv | hv
    · exact h v hv
    · cases hv

theorem All.takeMany (h : slots.All P) (hn : P .null) (i n : Nat) :
    (∀ v ∈ (slots.takeMany i n).1, P v) ∧ (slots.takeMany i n).2.All P := by
  induction n generalizing slots i with
  | zero => exact ⟨by simp [Slots.takeMany], h⟩
  | succ n ih =>
    obtain ⟨hv, hslots⟩ := h.take hn i
    obtain ⟨hvs, hslots⟩ := ih hslots (i + 1)
    exact ⟨List.forall_mem_cons.2 ⟨hv, hvs⟩, hslots⟩

theorem all_map_some {vs : List Value} (h : ∀ v ∈ vs, P v) : Slots.All P (vs.map some) := by
  intro v hv
  obtain ⟨u, hu, he⟩ := List.mem_map.1 hv
  exact Option.some.inj he ▸ h u hu

/-- Values that are left with their meanings. -/
def meanings (g : Value → Meaning) (slots : Slots) : List (Option Meaning) :=
  slots.map (Option.map g)

variable {g : Value → Meaning}

theorem take_meanings (hg : g .null = .ofNull) (slots : Slots) (i : Nat) :
    takeFrom .ofNull (slots.meanings g) i = (g (slots.take i).1, (slots.take i).2.meanings g) :=
  hg ▸ takeFrom_map g .null slots i

theorem takeMany_meanings (hg : g .null = .ofNull) (slots : Slots) (i n : Nat) :
    takeManyFrom .ofNull (slots.meanings g) i n =
      ((slots.takeMany i n).1.map g, (slots.takeMany i n).2.meanings g) := by
  rw [takeMany_eq]
  exact hg ▸ takeManyFrom_map g .null slots i n

end Slots

namespace Look

/-- A way to find templates finds all that a cache keeps. -/
def Covers (look : Look) (objects : Objects) (c : TemplateCache) : Prop :=
  ∀ strings kind shared, objects.strings strings.identity = strings →
    c.get? strings kind = some shared → look strings kind = some shared

/-- A way to find templates finds only what a cache keeps. -/
def Within (look : Look) (objects : Objects) (c : TemplateCache) : Prop :=
  ∀ strings kind shared, objects.strings strings.identity = strings →
    look strings kind = some shared → c.get? strings kind = some shared

/-- A way to find templates agrees with a cache about all that the cache keeps. -/
def Agrees (look : Look) (objects : Objects) (c : TemplateCache) : Prop :=
  ∀ strings kind shared, objects.strings strings.identity = strings →
    c.get? strings kind = some shared →
    ∃ found, look strings kind = some found ∧ found.template = shared.template

/-- What a way to find templates finds is what the cache gives from now on, kept or compiled. -/
def Yields (look : Look) (objects : Objects) (c : TemplateCache) : Prop :=
  ∀ strings kind found, objects.strings strings.identity = strings →
    look strings kind = some found → ∀ c' known', c.Extends c' → c'.Coherent objects known' →
    ∀ alive, ∃ shared, (c'.getOrCompile alive strings kind).outcome = .ok shared ∧
      shared.template = found.template

variable {look : Look} {objects : Objects} {known known' : Registry} {c c' : TemplateCache}

theorem Covers.agrees (h : look.Covers objects c) : look.Agrees objects c :=
  fun strings kind shared hs hg => ⟨shared, h strings kind shared hs hg, rfl⟩

theorem Within.yields (h : look.Within objects c) (hc : c.Coherent objects known) :
    look.Yields objects c := by
  intro strings kind found hs hl c' known' he hc' alive
  obtain ⟨_, ha⟩ := hc'.answers hs alive kind
  exact ⟨found, ha.found found (he.get? hc hc' hs (h strings kind found hs hl)), rfl⟩

theorem Agrees.of_extends (h : look.Agrees objects c') (he : c.Extends c')
    (hc : c.Coherent objects known) (hc' : c'.Coherent objects known') : look.Agrees objects c :=
  fun strings kind shared hs hg => h strings kind shared hs (he.get? hc hc' hs hg)

theorem Yields.of_extends (h : look.Yields objects c) (he : c.Extends c') :
    look.Yields objects c' :=
  fun strings kind found hs hl c'' known'' he' => h strings kind found hs hl c'' known'' (he.trans he')

theorem Covers.of_extends (h : look.Covers objects c') (he : c.Extends c')
    (hc : c.Coherent objects known) (hc' : c'.Coherent objects known') : look.Covers objects c :=
  fun strings kind shared hs hg => h strings kind shared hs (he.get? hc hc' hs hg)

theorem Within.of_extends (h : look.Within objects c) (he : c.Extends c')
    (hc : c.Coherent objects known) (hc' : c'.Coherent objects known') : look.Within objects c' :=
  fun strings kind shared hs hl => he.get? hc hc' hs (h strings kind shared hs hl)

end Look

/-- What applying a value to a region comes to. -/
structure NodePart.Outcome (objects : Objects) (known known' : Registry) (exact blank strict : Bool)
    (ds : Deferreds) (depth : Nat) (w : World) (p : NodeId) (before after : List NodeId)
    (part : NodePart) (f f' : List (Branch NodeId)) (value : Value) (a : Applied NodePart) :
    Prop where
  turned : NodePart.Turned objects known known' exact w a.world p before after part a.part f f'
  reads : a.error = none → value.Plain blank ds → ∀ (look : Look) (forecast : Forecast),
    look.Agrees objects a.world.cache → value.Foreseeable forecast →
    ∃ bs, value.foresee look strict forecast = some bs ∧
      a.part.Reads forecast objects known' a.world.tree.kind exact f' bs
  succeeds : value.Reached depth → value.Outstanding ds → ∀ look : Look,
    look.Yields objects w.cache → value.denote look strict ≠ none → a.error = none
  carries : a.error = none → ∀ look : Look, look.Covers objects a.world.cache →
    a.part.Carries look strict f' value

/-- A way to apply values does what values say, wherever it is used. -/
def Patch.Correct (patch : Patch) (objects : Objects) (exact strict : Bool) (ds : Deferreds)
    (depth : Nat) : Prop :=
  ∀ {s : Setting} {known : Registry} {w : World} {p : NodeId} {before after : List NodeId}
    {part : NodePart} {f : List (Branch NodeId)} {value : Value},
    s.deferreds = ds → s.strictValueCount = strict →
    part.Region objects known exact w p before after f → value.Faithful objects →
    ∀ blank, part.Ready exact blank f →
    ∃ known' f', NodePart.Outcome objects known known' exact blank strict ds depth w p before after
      part f f' value (patch s w part value)

end LiveMarkup
