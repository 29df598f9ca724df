import LiveMarkup.Proofs.Template.Sound
import LiveMarkup.Proofs.Value.Faithful
import LiveMarkup.Template.Cache

set_option autoImplicit false

/-!
What caches keep. All compiled templates that exist are in a registry, where a number stands for one
template only. A cache answers by the content of the fragments, and what it has once answered it
answers until it is cleared.
-/

namespace LiveMarkup

/-- The compiled templates that exist: all are sound, and no two have one number. -/
structure Registry where
  has : SharedTemplate → Prop
  sound : ∀ s, has s → s.template.Sound
  agree : ∀ s s', has s → has s' → s.id = s'.id → s = s'

namespace Registry

instance : LE Registry := ⟨fun known known' => ∀ s, known.has s → known'.has s⟩

variable {known known' known'' : Registry}

theorem le_refl (known : Registry) : known ≤ known := fun _ h => h

theorem le_trans (h : known ≤ known') (h' : known' ≤ known'') : known ≤ known'' :=
  fun s hs => h' s (h s hs)

/-- Nothing is compiled yet. -/
def empty : Registry := ⟨fun _ => False, fun _ h => h.elim, fun _ _ h => h.elim⟩

/-- One more template, with a new number. -/
def insert (known : Registry) (new : SharedTemplate) (hs : new.template.Sound)
    (hn : ∀ s, known.has s → s.id ≠ new.id) : Registry where
  has s := known.has s ∨ s = new
  sound s h := h.elim (known.sound s) fun he => he ▸ hs
  agree := by
    rintro s s' (h | rfl) (h' | rfl) hid
    · exact known.agree s s' h h' hid
    · exact absurd hid (hn s h)
    · exact absurd hid.symm (hn s' h')
    · rfl

/-- Whatever is new comes from one cache. -/
def Grown (known known' : Registry) (owner : Nat) : Prop :=
  known ≤ known' ∧ ∀ s, known'.has s → known.has s ∨ s.id.cache = owner

theorem Grown.refl (known : Registry) (owner : Nat) : known.Grown known owner :=
  ⟨le_refl known, fun _ h => .inl h⟩

theorem Grown.trans {owner : Nat} (h : known.Grown known' owner) (h' : known'.Grown known'' owner) :
    known.Grown known'' owner :=
  ⟨le_trans h.1 h'.1, fun s hs => (h'.2 s hs).elim (h.2 s) .inr⟩

end Registry

namespace TemplateCache

/-- A template is what fragments of a content compile to. -/
def ComesOf (objects : Objects) (detectDocuments : Bool) (kind : TemplateKind) (key : String)
    (template : Template) : Prop :=
  ∃ id, (objects.strings id).joined = key ∧
    (Template.compile (objects.strings id) kind detectDocuments).outcome = .ok template

/-- What a cache keeps is in the registry, numbered below its next number, and comes of fragments of
its content; an identity stands for what its fragments' content stands for. -/
structure Coherent (objects : Objects) (known : Registry) (c : TemplateCache) : Prop where
  identity : ∀ kind id shared, (id, shared) ∈ (c.partition kind).byIdentity →
    (c.partition kind).byContent.lookup (objects.strings id).joined = some shared
  content : ∀ kind key shared, (c.partition kind).byContent.lookup key = some shared →
    known.has shared
  origin : ∀ kind key shared, (c.partition kind).byContent.lookup key = some shared →
    ComesOf objects c.detectDocuments kind key shared.template
  serial : ∀ shared, known.has shared → shared.id.cache = c.owner →
    shared.id.serial < c.stats.compiles

/-- A cache that came of another one without being cleared. -/
structure Extends (c c' : TemplateCache) : Prop where
  owner : c'.owner = c.owner
  detectDocuments : c'.detectDocuments = c.detectDocuments
  content : ∀ kind key shared, (c.partition kind).byContent.lookup key = some shared →
    (c'.partition kind).byContent.lookup key = some shared

theorem Extends.refl (c : TemplateCache) : c.Extends c := ⟨rfl, rfl, fun _ _ _ h => h⟩

theorem Extends.trans {c c' c'' : TemplateCache} (h : c.Extends c') (h' : c'.Extends c'') :
    c.Extends c'' :=
  ⟨h'.owner.trans h.owner, h'.detectDocuments.trans h.detectDocuments,
    fun kind key shared hs => h'.content kind key shared (h.content kind key shared hs)⟩

variable {objects : Objects} {known : Registry} {c : TemplateCache} {strings : TemplateStrings}
  {kind : TemplateKind} {alive : StringsId → Bool}

theorem mem_of_lookup {α β : Type} [BEq α] [LawfulBEq α] {l : List (α × β)} {a : α} {b : β}
    (h : l.lookup a = some b) : (a, b) ∈ l := by
  obtain ⟨l₁, l₂, rfl, -⟩ := List.lookup_eq_some_iff.1 h
  simp

theorem Coherent.get? (h : c.Coherent objects known)
    (hs : objects.strings strings.identity = strings) :
    c.get? strings kind = (c.partition kind).byContent.lookup strings.joined := by
  rw [TemplateCache.get?, Partition.find?]
  cases hl : (c.partition kind).byIdentity.lookup strings.identity with
  | none => rfl
  | some shared =>
    have hc := h.identity kind _ _ (mem_of_lookup hl)
    rw [hs] at hc
    rw [hc]
    rfl

theorem Extends.get? {c' : TemplateCache} {known' : Registry} (he : c.Extends c')
    (h : c.Coherent objects known) (h' : c'.Coherent objects known')
    (hs : objects.strings strings.identity = strings) {shared : SharedTemplate}
    (hg : c.get? strings kind = some shared) : c'.get? strings kind = some shared := by
  rw [h.get? hs] at hg
  rw [h'.get? hs]
  exact he.content kind _ _ hg

/-- A cache with other statistics and another partition of one kind. -/
theorem partition_setPartition (c : TemplateCache) (stats : CacheStats) (kind other : TemplateKind)
    (p : Partition) : (setPartition { c with stats } kind p).partition other =
      if other = kind then p else c.partition other := by
  cases kind <;> cases other <;> rfl

theorem owner_setPartition (c : TemplateCache) (kind : TemplateKind) (p : Partition) :
    (c.setPartition kind p).owner = c.owner ∧
      (c.setPartition kind p).detectDocuments = c.detectDocuments ∧
      (c.setPartition kind p).stats = c.stats := by
  cases kind <;> exact ⟨rfl, rfl, rfl⟩

/-- Remembering an identity after some are forgotten. -/
theorem mem_remember {p : Partition} {shared : SharedTemplate} {entry : StringsId × SharedTemplate}
    (h : entry ∈ ((p.prune alive).remember strings shared).byIdentity) :
    entry = (strings.identity, shared) ∨ entry ∈ p.byIdentity := by
  simp only [Partition.remember, Partition.prune, List.mem_cons, List.mem_filter] at h
  exact h.imp_right fun h => h.1.1

/-- Fragments are remembered under what their content stands for; contents are only added. -/
theorem Coherent.remembers {known' : Registry} {p : Partition} {shared : SharedTemplate}
    (h : c.Coherent objects known) (hs : objects.strings strings.identity = strings)
    (stats : CacheStats)
    (hi : ∀ entry ∈ p.byIdentity,
      entry = (strings.identity, shared) ∨ entry ∈ (c.partition kind).byIdentity)
    (hc : ∀ key found, (c.partition kind).byContent.lookup key = some found →
      p.byContent.lookup key = some found)
    (hkey : p.byContent.lookup strings.joined = some shared)
    (hle : known ≤ known')
    (hhas : ∀ key found, p.byContent.lookup key = some found → known'.has found)
    (horigin : ∀ key found, p.byContent.lookup key = some found →
      ComesOf objects c.detectDocuments kind key found.template)
    (hserial : ∀ s, known'.has s → s.id.cache = c.owner → s.id.serial < stats.compiles) :
    (setPartition { c with stats } kind p).Coherent objects known' ∧
      c.Extends (setPartition { c with stats } kind p) ∧
      (setPartition { c with stats } kind p).get? strings kind = some shared := by
  have hp (other : TemplateKind) := partition_setPartition c stats kind other p
  obtain ⟨ho, hd, hst⟩ := owner_setPartition { c with stats } kind p
  have hkept (other : TemplateKind) (key : String) (found : SharedTemplate)
      (hf : (c.partition other).byContent.lookup key = some found) :
      ((setPartition { c with stats } kind p).partition other).byContent.lookup key =
        some found := by
    rw [hp]
    split
    · rename_i he
      exact hc key found (he ▸ hf)
    · exact hf
  have hco : (setPartition { c with stats } kind p).Coherent objects known' := by
    refine ⟨fun other id found hm => ?_, fun other key found hf => ?_,
      fun other key found hf => ?_, ?_⟩
    · rw [hp] at hm
      split at hm
      · rename_i he
        subst he
        rcases hi _ hm with he | hm
        · obtain ⟨rfl, rfl⟩ := Prod.mk.inj he
          rw [hp, if_pos rfl, hs]
          exact hkey
        · exact hkept _ _ _ (h.identity _ _ _ hm)
      · exact hkept _ _ _ (h.identity _ _ _ hm)
    · rw [hp] at hf
      split at hf
      · exact hhas key found hf
      · exact hle _ (h.content _ _ _ hf)
    · rw [hd]
      rw [hp] at hf
      split at hf
      · rename_i he
        exact he ▸ horigin key found hf
      · exact h.origin _ _ _ hf
    · rw [ho, hst]
      exact hserial
  refine ⟨hco, ⟨ho, hd, hkept⟩, ?_⟩
  rw [hco.get? hs, hp, if_pos rfl]
  exact hkey

/-- What a request does to a cache and to the registry. -/
structure Answers (objects : Objects) (known known' : Registry) (c : TemplateCache)
    (strings : TemplateStrings) (kind : TemplateKind) (answer : Answer) : Prop where
  grown : known.Grown known' c.owner
  coherent : answer.cache.Coherent objects known'
  extends_cache : c.Extends answer.cache
  kept : ∀ shared, answer.outcome = .ok shared → answer.cache.get? strings kind = some shared
  has : ∀ shared, answer.outcome = .ok shared → known'.has shared
  found : ∀ shared, c.get? strings kind = some shared → answer.outcome = .ok shared

theorem Coherent.answers (h : c.Coherent objects known)
    (hs : objects.strings strings.identity = strings) (alive : StringsId → Bool)
    (kind : TemplateKind) :
    ∃ known', Answers objects known known' c strings kind
      (c.getOrCompile alive strings kind) := by
  have hget : c.get? strings kind = (c.partition kind).byContent.lookup strings.joined := h.get? hs
  unfold getOrCompile
  simp only
  split
  · rename_i shared hl
    have hc := h.identity kind _ _ (mem_of_lookup hl)
    rw [hs] at hc
    have hco : Coherent objects known
        { c with stats.identityHits := c.stats.identityHits + 1 } :=
      ⟨h.identity, h.content, h.origin, h.serial⟩
    refine ⟨known, .refl known _, hco, ⟨rfl, rfl, fun _ _ _ h => h⟩, ?_, ?_, ?_⟩
    · rintro _ ⟨⟩
      rw [hco.get? hs]
      exact hc
    · rintro _ ⟨⟩
      exact h.content kind _ _ hc
    · intro found hf
      rw [hget, hc] at hf
      rw [Option.some.inj hf]
  split
  · rename_i shared hl
    obtain ⟨hco, he, hg⟩ := h.remembers
      (p := ((c.partition kind).prune alive).remember strings shared) hs
      { c.stats with contentHits := c.stats.contentHits + 1 } (fun _ => mem_remember)
      (fun _ _ hf => hf) hl (Registry.le_refl known) (fun _ _ => h.content kind _ _)
      (fun _ _ => h.origin kind _ _) h.serial
    refine ⟨known, .refl known _, hco, he, ?_, ?_, ?_⟩
    · rintro _ ⟨⟩
      exact hg
    · rintro _ ⟨⟩
      exact h.content kind _ _ hl
    · intro found hf
      rw [hget, hl] at hf
      rw [Option.some.inj hf]
  rename_i hl
  split
  · exact ⟨known, .refl known _, h, .refl c, by simp, by simp, by simp [hget, hl]⟩
  · -- A new template comes with a number that no other one of this cache has.
    rename_i template hcompile
    obtain ⟨shared, hshared⟩ : ∃ shared : SharedTemplate,
        shared = ⟨⟨c.owner, c.stats.compiles⟩, template⟩ := ⟨_, rfl⟩
    have hnew : ∀ s, known.has s → s.id ≠ shared.id := fun s hk he => by
      rw [hshared] at he
      have hlt := h.serial s hk (congrArg TemplateId.cache he)
      have heq := congrArg TemplateId.serial he
      simp only at heq
      omega
    have hsound : shared.template.Sound := hshared ▸ Template.sound_compile hcompile
    have hle : known ≤ known.insert shared hsound hnew := fun _ hk => .inl hk
    obtain ⟨p, hp⟩ : ∃ p : Partition, p = { (c.partition kind).prune alive with
        byContent := (strings.joined, shared) :: (c.partition kind).byContent } := ⟨_, rfl⟩
    obtain ⟨hco, he, hg⟩ := h.remembers
      (p := p.remember strings shared) hs
      { c.stats with compiles := c.stats.compiles + 1 }
      (fun entry hm => by
        rw [hp] at hm
        exact mem_remember (p := c.partition kind) hm)
      (fun key found hf => by
        have hne : key ≠ strings.joined := fun he => by simp [← he, hf] at hl
        rw [hp]
        simp only [Partition.remember, List.lookup_cons, beq_eq_false_iff_ne.2 hne, hf])
      (by
        rw [hp]
        simp [Partition.remember])
      hle
      (fun key found hf => by
        rw [hp] at hf
        simp only [Partition.remember, List.lookup_cons] at hf
        split at hf
        · exact .inr (Option.some.inj hf).symm
        · exact .inl (h.content kind _ _ hf))
      (fun key found hf => by
        rw [hp] at hf
        simp only [Partition.remember, List.lookup_cons] at hf
        split at hf
        · rename_i hkey
          obtain rfl := Option.some.inj hf
          exact ⟨strings.identity, by rw [hs, beq_iff_eq.1 hkey], by rw [hs, hshared]; exact hcompile⟩
        · exact h.origin kind _ _ hf)
      (fun s hk ho => by
        rcases hk with hk | rfl
        · exact Nat.lt_succ_of_lt (h.serial s hk ho)
        · rw [hshared]
          exact Nat.lt_succ_self _)
    rw [hp] at hco he hg
    rw [← hshared]
    refine ⟨known.insert shared hsound hnew, ⟨hle, ?_⟩, ?_, ?_, ?_, ?_, ?_⟩
    · rintro s (hk | rfl)
      · exact .inl hk
      · exact .inr (by rw [hshared])
    · exact hco
    · exact he
    · rintro _ ⟨⟩
      exact hg
    · rintro _ ⟨⟩
      exact .inr rfl
    · intro found hf
      rw [hget, hl] at hf
      cases hf

theorem Coherent.purge (h : c.Coherent objects known) (alive : StringsId → Bool) :
    (c.purge alive).1.Coherent objects known where
  identity kind id shared hm := by
    cases kind with
    | html => exact h.identity .html id shared (List.mem_filter.1 hm).1
    | svg => exact h.identity .svg id shared (List.mem_filter.1 hm).1
  content kind key shared hk := by
    cases kind with
    | html => exact h.content .html key shared hk
    | svg => exact h.content .svg key shared hk
  origin kind key shared hk := by
    cases kind with
    | html => exact h.origin .html key shared hk
    | svg => exact h.origin .svg key shared hk
  serial := h.serial

theorem Coherent.clear (h : c.Coherent objects known) : c.clear.Coherent objects known where
  identity kind _ _ hm := by cases kind <;> cases hm
  content kind _ _ hm := by cases kind <;> cases hm
  origin kind _ _ hm := by cases kind <;> cases hm
  serial := h.serial

end TemplateCache

end LiveMarkup
