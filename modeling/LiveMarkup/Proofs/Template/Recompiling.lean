import LiveMarkup.Proofs.Template.History

set_option autoImplicit false

/-!
What is kept against what would be compiled. Everything a cache keeps was compiled for an earlier
request, so a hit gives what compiling would give, as long as no other fragments join to the same
text. Fragments that hold the marker can join to the text of others, and then a request is answered
with a template of other holes.
-/

namespace LiveMarkup

variable {objects : Objects} {strings strings' : TemplateStrings} {kind : TemplateKind}
  {detectDocuments : Bool} {template : Template}

/-- Compiling looks at the fragments, not at where they were written. -/
theorem Template.compile_congr (h : strings.fragments = strings'.fragments) (kind : TemplateKind)
    (detectDocuments : Bool) :
    Template.compile strings kind detectDocuments =
      Template.compile strings' kind detectDocuments := by
  obtain ⟨_, first, rest⟩ := strings
  obtain ⟨_, first', rest'⟩ := strings'
  obtain ⟨rfl, rfl⟩ := List.cons.inj h
  rfl

/-- A template is of the kind that was asked for and takes a value for each hole. -/
theorem Template.shape_of_compile
    (h : (Template.compile strings kind detectDocuments).outcome = .ok template) :
    template.kind = kind ∧ template.valueCount = strings.holeCount := by
  unfold Template.compile at h
  simp only at h
  split at h
  · cases h
  · obtain rfl := Except.ok.inj h
    exact ⟨rfl, rfl⟩

namespace CacheInUse

variable {u : CacheInUse} {calls calls' : List CacheCall} {shared : SharedTemplate}

/-- What is kept was compiled for one of the requests. -/
def Compiled (u : CacheInUse) (detectDocuments : Bool) (calls : List CacheCall) : Prop :=
  u.cache.detectDocuments = detectDocuments ∧
    ∀ kind key shared, (u.cache.partition kind).byContent.lookup key = some shared →
      ∃ strings, .request strings kind ∈ calls ∧ strings.joined = key ∧
        (Template.compile strings kind detectDocuments).outcome = .ok shared.template

theorem Compiled.mono (h : u.Compiled detectDocuments calls) (hsub : calls ⊆ calls') :
    u.Compiled detectDocuments calls' :=
  ⟨h.1, fun kind key shared hk => by
    obtain ⟨strings, hm, hrest⟩ := h.2 kind key shared hk
    exact ⟨strings, hsub hm, hrest⟩⟩

theorem compiled_new (owner : Nat) (detectDocuments : Bool) :
    (new owner detectDocuments).Compiled detectDocuments [] :=
  ⟨rfl, fun kind _ _ hk => by cases kind <;> cases hk⟩

theorem Compiled.call (h : u.Compiled detectDocuments calls) (c : CacheCall) :
    (u.call c).Compiled detectDocuments (calls ++ [c]) := by
  have hmono := h.mono (List.subset_append_left calls [c])
  cases c with
  | request strings kind =>
    have hcache : (u.call (.request strings kind)).cache = (u.answer strings kind).cache := rfl
    have hdetect : (u.answer strings kind).cache.detectDocuments = u.cache.detectDocuments :=
      TemplateCache.detectDocuments_getOrCompile ..
    cases u.response strings kind with
    | hit found _ _ _ _ hcontent =>
      refine ⟨hdetect.trans h.1, fun other key shared hk => ?_⟩
      rw [hcache, hcontent] at hk
      exact hmono.2 other key shared hk
    | compiled template _ hcompile _ _ _ hcontent =>
      refine ⟨hdetect.trans h.1, fun other key shared hk => ?_⟩
      rw [hcache, hcontent] at hk
      split at hk
      · next he =>
        subst he
        rw [List.lookup_cons] at hk
        split at hk
        · next hkey =>
          obtain rfl := Option.some.inj hk
          exact ⟨strings, by simp, (beq_iff_eq.1 hkey).symm, h.1 ▸ hcompile⟩
        · exact hmono.2 other key shared hk
      · exact hmono.2 other key shared hk
    | failed _ _ _ _ hunchanged =>
      rw [Compiled, hcache, hunchanged]
      exact hmono
  | look strings kind => exact hmono
  | purge =>
    refine ⟨h.1, fun other key shared hk => hmono.2 other key shared ?_⟩
    rwa [← (u.cache.sameContent_purge u.alive).content other]
  | clear => exact ⟨h.1, fun other _ _ hk => by cases other <;> cases hk⟩
  | drop id => exact hmono

theorem Compiled.run (h : u.Compiled detectDocuments calls) (calls' : List CacheCall) :
    (u.run calls').Compiled detectDocuments (calls ++ calls') := by
  induction calls' generalizing u calls with
  | nil =>
    rw [List.append_nil]
    exact h
  | cons c calls' ih => simpa using ih (h.call c)

/-- Whatever was asked of a cache before, a template that it gives is the one that the fragments
compile to, unless other fragments that join to the same text were asked for. -/
theorem answer_eq_compile (hc : ∀ c ∈ calls, c.Faithful objects)
    (hs : objects.strings strings.identity = strings)
    (htell : ∀ other, .request other kind ∈ calls → other.joined = strings.joined →
      other.fragments = strings.fragments) (owner : Nat) (detectDocuments : Bool)
    (hok : (((new owner detectDocuments).run calls).answer strings kind).outcome = .ok shared) :
    (Template.compile strings kind detectDocuments).outcome = .ok shared.template ∧
      shared.template.kind = kind ∧ shared.template.valueCount = strings.holeCount := by
  have hcompile : (Template.compile strings kind detectDocuments).outcome = .ok shared.template := by
    obtain ⟨u, hu⟩ : ∃ u, u = (new owner detectDocuments).run calls := ⟨_, rfl⟩
    have hcompiled := (compiled_new owner detectDocuments).run calls
    have hcoherent := (coherent_new objects owner detectDocuments).run hc
    rw [← hu] at hok hcompiled hcoherent
    cases u.response strings kind with
    | hit found hfound houtcome =>
      obtain rfl := Except.ok.inj (houtcome.symm.trans hok)
      obtain ⟨known, hcoherent⟩ := hcoherent
      rw [hcoherent.get? hs] at hfound
      obtain ⟨other, hm, hjoined, hother⟩ := hcompiled.2 _ _ _ hfound
      rwa [← Template.compile_congr (htell other (by simpa using hm) hjoined)]
    | compiled template _ hcompile houtcome =>
      obtain rfl := Except.ok.inj (houtcome.symm.trans hok)
      rwa [← hcompiled.1]
    | failed errors _ _ houtcome =>
      rw [houtcome] at hok
      cases hok
  exact ⟨hcompile, Template.shape_of_compile hcompile⟩

/-- The fragments of a paragraph are asked for again where they were written anew. -/
theorem twin_answer_eq_compile :
    ∃ shared, (((new 0 true).run [.request (twin 0) .html, .drop ⟨0⟩]).answer (twin 1)
        .html).outcome = .ok shared ∧
      (Template.compile (twin 1) .html true).outcome = .ok shared.template ∧
      shared.template.valueCount = 1 := by
  obtain ⟨shared, hok⟩ := TemplateCache.Answer.ok_of_isSome
    (a := ((new 0 true).run [.request (twin 0) .html, .drop ⟨0⟩]).answer (twin 1) .html)
    (by decide +kernel)
  have hcalls : ∀ c ∈ [CacheCall.request (twin 0) .html, .drop ⟨0⟩],
      c.Faithful (.twins ["<p>", "</p>"]) := by
    rintro c hc
    rcases List.mem_pair.1 hc with rfl | rfl
    · rfl
    · trivial
  have htell : ∀ other, .request other .html ∈ [CacheCall.request (twin 0) .html, .drop ⟨0⟩] →
      other.joined = (twin 1).joined → other.fragments = (twin 1).fragments := by
    rintro other hm -
    rcases List.mem_pair.1 hm with he | he
    · obtain ⟨rfl, -⟩ := CacheCall.request.inj he
      rfl
    · cases he
  obtain ⟨hcompile, -, hcount⟩ := answer_eq_compile hcalls rfl htell 0 true hok
  exact ⟨shared, hok, hcompile, hcount⟩

/-- A paragraph of the marker as text has joined to what the fragments of a paragraph with a hole
join to, and then these are given a template without holes. -/
theorem answer_ne_compile_of_marked :
    let marked := TemplateStrings.ofFragments ⟨0⟩ ["<p>" ++ marker ++ "</p>"]
    ∃ shared, (((new 0 true).run [.request marked .html]).answer (twin 1) .html).outcome =
        .ok shared ∧
      shared.template.valueCount = 0 ∧ (twin 1).holeCount = 1 ∧
      (Template.compile (twin 1) .html true).outcome ≠ .ok shared.template := by
  intro marked
  obtain ⟨shared, hok⟩ := TemplateCache.Answer.ok_of_isSome
    (a := ((new 0 true).run [.request marked .html]).answer (twin 1) .html) (by decide +kernel)
  have hzero : shared.template.valueCount = 0 := by
    have hcount : (((new 0 true).run [.request marked .html]).answer (twin 1)
        .html).outcome.toOption.map (·.template.valueCount) = some 0 := by decide +kernel
    rw [hok] at hcount
    exact Option.some.inj hcount
  refine ⟨shared, hok, hzero, rfl, fun hcompile => ?_⟩
  have hone := (Template.shape_of_compile hcompile).2
  rw [hzero] at hone
  cases hone

end CacheInUse

end LiveMarkup
