import LiveMarkup.Proofs.Template.Joining
import LiveMarkup.Proofs.Template.Keeping
import Mathlib.Data.Finset.Card
import Mathlib.Data.Finset.Prod

set_option autoImplicit false

/-!
Histories of a cache. Requests, looks, purges and clearings follow each other in any order while
fragments go out of existence. What is kept depends on the contents that were compiled and on
nothing else: the identities only save work.
-/

namespace LiveMarkup

def CacheStats.hits (s : CacheStats) : Nat := s.identityHits + s.contentHits

namespace TemplateCache

/-- How a request is answered: with what is there, with a new template, or not at all. -/
inductive Response (c : TemplateCache) (strings : TemplateStrings) (kind : TemplateKind)
    (a : Answer) : Prop where
  | hit (shared : SharedTemplate) (found : c.get? strings kind = some shared)
      (outcome : a.outcome = .ok shared) (hits : a.cache.stats.hits = c.stats.hits + 1)
      (compiles : a.cache.stats.compiles = c.stats.compiles)
      (content : ∀ other, (a.cache.partition other).byContent = (c.partition other).byContent)
  | compiled (template : Template) (missing : c.get? strings kind = none)
      (compiles_to : (Template.compile strings kind c.detectDocuments).outcome = .ok template)
      (outcome : a.outcome = .ok ⟨⟨c.owner, c.stats.compiles⟩, template⟩)
      (hits : a.cache.stats.hits = c.stats.hits)
      (compiles : a.cache.stats.compiles = c.stats.compiles + 1)
      (content : ∀ other, (a.cache.partition other).byContent =
        if other = kind then
          (strings.joined, ⟨⟨c.owner, c.stats.compiles⟩, template⟩) :: (c.partition kind).byContent
        else (c.partition other).byContent)
  | failed (errors : List Markup.SyntaxError) (missing : c.get? strings kind = none)
      (compiles_to : (Template.compile strings kind c.detectDocuments).outcome = .error errors)
      (outcome : a.outcome = .error errors) (unchanged : a.cache = c)

variable {c c' : TemplateCache} {strings : TemplateStrings} {kind : TemplateKind}
  {alive alive' : StringsId → Bool} {objects : Objects} {known known' : Registry}

theorem response (c : TemplateCache) (alive : StringsId → Bool) (strings : TemplateStrings)
    (kind : TemplateKind) : Response c strings kind (c.getOrCompile alive strings kind) := by
  have hget : c.get? strings kind =
      ((c.partition kind).byIdentity.lookup strings.identity).or
        ((c.partition kind).byContent.lookup strings.joined) := rfl
  unfold getOrCompile
  simp only
  split
  · next shared hl =>
    refine .hit shared (by rw [hget, hl, Option.some_or]) rfl ?_ rfl fun other => ?_
    · simp only [CacheStats.hits]
      omega
    · cases other <;> rfl
  next hl =>
  rw [hl, Option.none_or] at hget
  split
  · next shared hl =>
    refine .hit shared (hget.trans hl) rfl ?_ ?_ fun other => ?_
    · rw [(owner_setPartition _ kind _).2.2]
      simp only [CacheStats.hits]
      omega
    · rw [(owner_setPartition _ kind _).2.2]
    · rw [partition_setPartition]
      split
      · next he => rw [he]; rfl
      · rfl
  next hl =>
  rw [hl] at hget
  split
  · next errors hcompile => exact .failed errors hget hcompile rfl rfl
  · next template hcompile =>
    refine .compiled template hget hcompile rfl ?_ ?_ fun other => ?_
    · rw [(owner_setPartition _ kind _).2.2]
      rfl
    · rw [(owner_setPartition _ kind _).2.2]
    · rw [partition_setPartition]
      split <;> rfl

theorem detectDocuments_getOrCompile (c : TemplateCache) (alive : StringsId → Bool)
    (strings : TemplateStrings) (kind : TemplateKind) :
    (c.getOrCompile alive strings kind).cache.detectDocuments = c.detectDocuments := by
  unfold getOrCompile
  simp only
  split
  · rfl
  split
  · exact (owner_setPartition _ kind _).2.1
  split
  · rfl
  · exact (owner_setPartition _ kind _).2.1

theorem Answer.ok_of_isSome {a : Answer} (h : a.outcome.toOption.isSome) :
    ∃ shared, a.outcome = .ok shared := by
  cases ha : a.outcome with
  | error errors => simp [ha, Except.toOption] at h
  | ok shared => exact ⟨shared, rfl⟩

/-- A request is a hit exactly if looking finds a template, and then it gives that one. -/
theorem get?_eq_some_iff {shared : SharedTemplate} :
    c.get? strings kind = some shared ↔
      (c.getOrCompile alive strings kind).outcome = .ok shared ∧
        (c.getOrCompile alive strings kind).cache.stats.hits = c.stats.hits + 1 := by
  cases c.response alive strings kind with
  | hit found hfound houtcome hhits =>
    rw [hfound, houtcome, hhits, Option.some.injEq, Except.ok.injEq]
    exact (and_iff_left rfl).symm
  | compiled template hmissing _ _ hhits =>
    rw [hmissing, hhits]
    simp
  | failed errors hmissing _ houtcome =>
    rw [hmissing, houtcome]
    simp

/-- Two caches that have compiled the same and will number what they compile alike. -/
structure SameContent (c c' : TemplateCache) : Prop where
  owner : c'.owner = c.owner
  detectDocuments : c'.detectDocuments = c.detectDocuments
  compiles : c'.stats.compiles = c.stats.compiles
  content : ∀ kind, (c'.partition kind).byContent = (c.partition kind).byContent

theorem SameContent.get? (h : SameContent c c') (hc : c.Coherent objects known)
    (hc' : c'.Coherent objects known') (hs : objects.strings strings.identity = strings) :
    c'.get? strings kind = c.get? strings kind := by
  rw [hc.get? hs, hc'.get? hs, h.content]

theorem sameContent_purge (c : TemplateCache) (alive : StringsId → Bool) :
    SameContent c (c.purge alive).1 :=
  ⟨rfl, rfl, rfl, fun kind => by cases kind <;> rfl⟩

theorem SameContent.purge (h : SameContent c c') (alive alive' : StringsId → Bool) :
    SameContent (c.purge alive).1 (c'.purge alive').1 where
  owner := h.owner
  detectDocuments := h.detectDocuments
  compiles := h.compiles
  content kind := by
    rw [(sameContent_purge c alive).content, (sameContent_purge c' alive').content, h.content]

theorem SameContent.clear (h : SameContent c c') : SameContent c.clear c'.clear :=
  ⟨h.owner, h.detectDocuments, h.compiles, fun kind => by cases kind <;> rfl⟩

/-- Whatever identities they remember, the two answer alike. -/
theorem SameContent.getOrCompile (h : SameContent c c') (hc : c.Coherent objects known)
    (hc' : c'.Coherent objects known') (hs : objects.strings strings.identity = strings) :
    SameContent (c.getOrCompile alive strings kind).cache
      (c'.getOrCompile alive' strings kind).cache := by
  obtain ⟨_, ha⟩ := hc.answers hs alive kind
  obtain ⟨_, ha'⟩ := hc'.answers hs alive' kind
  have hget : c'.get? strings kind = c.get? strings kind := h.get? hc hc' hs
  have howner := (ha'.extends_cache.owner.trans h.owner).trans ha.extends_cache.owner.symm
  have hdetect := (ha'.extends_cache.detectDocuments.trans h.detectDocuments).trans
    ha.extends_cache.detectDocuments.symm
  cases c.response alive strings kind with
  | hit shared hfound _ _ hcompiles hcontent =>
    cases c'.response alive' strings kind with
    | hit shared' _ _ _ hcompiles' hcontent' =>
      exact ⟨howner, hdetect, by rw [hcompiles, hcompiles', h.compiles],
        fun other => by rw [hcontent, hcontent', h.content]⟩
    | compiled _ hmissing | failed _ hmissing =>
      rw [hget, hfound] at hmissing
      cases hmissing
  | compiled template hmissing hcompile _ _ hcompiles hcontent =>
    cases c'.response alive' strings kind with
    | hit _ hfound =>
      rw [hget, hmissing] at hfound
      cases hfound
    | compiled template' _ hcompile' _ _ hcompiles' hcontent' =>
      rw [h.detectDocuments, hcompile] at hcompile'
      obtain rfl := Except.ok.inj hcompile'
      refine ⟨howner, hdetect, by rw [hcompiles, hcompiles', h.compiles], fun other => ?_⟩
      rw [hcontent, hcontent', h.content, h.content, h.owner, h.compiles]
    | failed errors _ hcompile' =>
      rw [h.detectDocuments, hcompile] at hcompile'
      cases hcompile'
  | failed errors hmissing hcompile _ hunchanged =>
    cases c'.response alive' strings kind with
    | hit _ hfound =>
      rw [hget, hmissing] at hfound
      cases hfound
    | compiled template' _ hcompile' =>
      rw [h.detectDocuments, hcompile] at hcompile'
      cases hcompile'
    | failed _ _ _ _ hunchanged' =>
      rw [hunchanged, hunchanged']
      exact h

/-- Whatever identities they remember, the two give the same template or the same errors. -/
theorem SameContent.outcome_eq (h : SameContent c c') (hc : c.Coherent objects known)
    (hc' : c'.Coherent objects known') (hs : objects.strings strings.identity = strings) :
    (c'.getOrCompile alive' strings kind).outcome = (c.getOrCompile alive strings kind).outcome := by
  have hget : c'.get? strings kind = c.get? strings kind := h.get? hc hc' hs
  cases c.response alive strings kind with
  | hit shared hfound houtcome =>
    cases c'.response alive' strings kind with
    | hit shared' hfound' houtcome' =>
      rw [hget, hfound] at hfound'
      rw [houtcome, houtcome', Option.some.inj hfound']
    | compiled _ hmissing | failed _ hmissing =>
      rw [hget, hfound] at hmissing
      cases hmissing
  | compiled template hmissing hcompile houtcome =>
    cases c'.response alive' strings kind with
    | hit _ hfound =>
      rw [hget, hmissing] at hfound
      cases hfound
    | compiled template' _ hcompile' houtcome' =>
      rw [h.detectDocuments, hcompile] at hcompile'
      rw [houtcome, houtcome', h.owner, h.compiles, Except.ok.inj hcompile']
    | failed errors _ hcompile' =>
      rw [h.detectDocuments, hcompile] at hcompile'
      cases hcompile'
  | failed errors hmissing hcompile houtcome =>
    cases c'.response alive' strings kind with
    | hit _ hfound =>
      rw [hget, hmissing] at hfound
      cases hfound
    | compiled template' _ hcompile' =>
      rw [h.detectDocuments, hcompile] at hcompile'
      cases hcompile'
    | failed errors' _ hcompile' houtcome' =>
      rw [h.detectDocuments, hcompile] at hcompile'
      rw [houtcome, houtcome', Except.error.inj hcompile']

end TemplateCache

/-- What is asked of a cache, and what happens around it. -/
inductive CacheCall where
  | request (strings : TemplateStrings) (kind : TemplateKind)
  | look (strings : TemplateStrings) (kind : TemplateKind)
  | purge
  | clear
  /-- Fragments go out of existence. -/
  | drop (id : StringsId)
  deriving DecidableEq

/-- A call is given fragments that their identity stands for. -/
def CacheCall.Faithful (objects : Objects) : CacheCall → Prop
  | .request strings _ | .look strings _ => objects.strings strings.identity = strings
  | .purge | .clear | .drop _ => True

/-- A cache in use, with the fragments that do not exist any more. -/
structure CacheInUse where
  cache : TemplateCache
  gone : List StringsId := []

namespace CacheInUse

def new (owner : Nat) (detectDocuments : Bool) : CacheInUse := { cache := { owner, detectDocuments } }

def alive (u : CacheInUse) (id : StringsId) : Bool := !u.gone.contains id

/-- What a request for a template gives now. -/
def answer (u : CacheInUse) (strings : TemplateStrings) (kind : TemplateKind) :
    TemplateCache.Answer :=
  u.cache.getOrCompile u.alive strings kind

def call (u : CacheInUse) : CacheCall → CacheInUse
  | .request strings kind => { u with cache := (u.answer strings kind).cache }
  | .look _ _ => u
  | .purge => { u with cache := (u.cache.purge u.alive).1 }
  | .clear => { u with cache := u.cache.clear }
  | .drop id => { u with gone := id :: u.gone }

def run (u : CacheInUse) (calls : List CacheCall) : CacheInUse := calls.foldl call u

theorem response (u : CacheInUse) (strings : TemplateStrings) (kind : TemplateKind) :
    TemplateCache.Response u.cache strings kind (u.answer strings kind) :=
  u.cache.response u.alive strings kind

@[simp] theorem run_append (u : CacheInUse) (calls calls' : List CacheCall) :
    u.run (calls ++ calls') = (u.run calls).run calls' := List.foldl_append

@[simp] theorem run_cons (u : CacheInUse) (c : CacheCall) (calls : List CacheCall) :
    u.run (c :: calls) = (u.call c).run calls := rfl

end CacheInUse

/-- What has come of the calls so far. -/
structure Ledger where
  /-- How many requests gave a template. -/
  answered : Nat := 0
  /-- What was compiled since the cache was last cleared, the latest first. -/
  compiled : List (TemplateKind × String) := []

namespace Ledger

def note (l : Ledger) (u : CacheInUse) : CacheCall → Ledger
  | .request strings kind =>
    match (u.answer strings kind).outcome with
    | .ok _ =>
      { answered := l.answered + 1
        compiled :=
          if (u.cache.get? strings kind).isNone then (kind, strings.joined) :: l.compiled
          else l.compiled }
    | .error _ => l
  | .clear => { l with compiled := [] }
  | .look _ _ | .purge | .drop _ => l

/-- What has come of calls that are made one after the other. -/
def noteAll (l : Ledger) (u : CacheInUse) : List CacheCall → Ledger
  | [] => l
  | c :: calls => noteAll (l.note u c) (u.call c) calls

end Ledger

namespace CacheInUse

variable {objects : Objects} {u u' : CacheInUse} {calls : List CacheCall} {c : CacheCall}
  {strings strings' : TemplateStrings} {kind : TemplateKind} {l : Ledger}

/-- What is kept is in order. -/
def Coherent (objects : Objects) (u : CacheInUse) : Prop :=
  ∃ known, u.cache.Coherent objects known

theorem coherent_new (objects : Objects) (owner : Nat) (detectDocuments : Bool) :
    (new owner detectDocuments).Coherent objects := by
  refine ⟨.empty, fun kind _ _ hm => ?_, fun kind _ _ hk => ?_, fun kind _ _ hk => ?_,
    fun _ h => h.elim⟩
  · cases kind <;> cases hm
  · cases kind <;> cases hk
  · cases kind <;> cases hk

theorem Coherent.call (h : u.Coherent objects) (hc : c.Faithful objects) :
    (u.call c).Coherent objects := by
  obtain ⟨known, h⟩ := h
  cases c with
  | request strings kind =>
    obtain ⟨known', ha⟩ := h.answers hc u.alive kind
    exact ⟨known', ha.coherent⟩
  | look strings kind => exact ⟨known, h⟩
  | purge => exact ⟨known, h.purge u.alive⟩
  | clear => exact ⟨known, h.clear⟩
  | drop id => exact ⟨known, h⟩

theorem Coherent.run (h : u.Coherent objects) (hc : ∀ c ∈ calls, c.Faithful objects) :
    (u.run calls).Coherent objects := by
  induction calls generalizing u with
  | nil => exact h
  | cons c calls ih =>
    exact ih (h.call (hc c List.mem_cons_self)) fun d hd => hc d (List.mem_cons_of_mem _ hd)

/-- What a request gives is found from then on, under whatever identity. -/
theorem Coherent.get?_answer (h : u.Coherent objects)
    (hs : objects.strings strings.identity = strings) {shared : SharedTemplate}
    (hok : (u.answer strings kind).outcome = .ok shared) :
    (u.call (.request strings kind)).cache.get? strings kind = some shared := by
  obtain ⟨known, h⟩ := h
  obtain ⟨_, ha⟩ := h.answers hs u.alive kind
  exact ha.kept shared hok

theorem Coherent.get?_joined (h : u.Coherent objects)
    (hs : objects.strings strings.identity = strings)
    (hs' : objects.strings strings'.identity = strings') (hjoined : strings'.joined = strings.joined) :
    u.cache.get? strings' kind = u.cache.get? strings kind := by
  obtain ⟨known, h⟩ := h
  rw [h.get? hs, h.get? hs', hjoined]

/-- What was found is found until the cache is cleared. -/
theorem Coherent.get?_run (h : u.Coherent objects) (hc : ∀ c ∈ calls, c.Faithful objects)
    (hclear : CacheCall.clear ∉ calls) (hs : objects.strings strings.identity = strings)
    {shared : SharedTemplate} (hg : u.cache.get? strings kind = some shared) :
    (u.run calls).cache.get? strings kind = some shared := by
  induction calls generalizing u with
  | nil => exact hg
  | cons c calls ih =>
    have hcf := hc c List.mem_cons_self
    refine ih (h.call hcf) (fun d hd => hc d (List.mem_cons_of_mem _ hd))
      (fun hm => hclear (List.mem_cons_of_mem _ hm)) ?_
    obtain ⟨known', h'⟩ := h.call hcf
    obtain ⟨known, h⟩ := h
    cases c with
    | request other kind' =>
      obtain ⟨_, ha⟩ := h.answers hcf u.alive kind'
      exact ha.extends_cache.get? h ha.coherent hs hg
    | look other kind' => exact hg
    | purge => exact ((u.cache.sameContent_purge u.alive).get? h h' hs).trans hg
    | clear => exact absurd List.mem_cons_self hclear
    | drop id => exact hg

/-- Two caches in use with the same content have it after the same calls. -/
theorem Coherent.sameContent_run (h : u.Coherent objects) (h' : u'.Coherent objects)
    (hsame : u.cache.SameContent u'.cache) (hc : ∀ c ∈ calls, c.Faithful objects) :
    (u.run calls).cache.SameContent (u'.run calls).cache := by
  induction calls generalizing u u' with
  | nil => exact hsame
  | cons c calls ih =>
    have hcf := hc c List.mem_cons_self
    refine ih (h.call hcf) (h'.call hcf) ?_ fun d hd => hc d (List.mem_cons_of_mem _ hd)
    cases c with
    | request strings kind =>
      obtain ⟨_, h⟩ := h
      obtain ⟨_, h'⟩ := h'
      exact hsame.getOrCompile h h' hcf
    | look strings kind => exact hsame
    | purge => exact hsame.purge u.alive u'.alive
    | clear => exact hsame.clear
    | drop id => exact hsame

/-- The counters and the contents of a cache are what the ledger says. -/
structure Accounts (u : CacheInUse) (l : Ledger) : Prop where
  answered : u.cache.stats.hits + u.cache.stats.compiles = l.answered
  compiled : ∀ kind, (u.cache.partition kind).byContent.map Prod.fst =
    (l.compiled.filter (·.1 = kind)).map Prod.snd
  nodup : l.compiled.Nodup

theorem accounts_new (owner : Nat) (detectDocuments : Bool) :
    (new owner detectDocuments).Accounts {} :=
  ⟨rfl, fun kind => by cases kind <;> rfl, List.nodup_nil⟩

/-- What is missing was not compiled since the cache was cleared. -/
theorem Accounts.not_mem (h : u.Accounts l) (hg : u.cache.get? strings kind = none) :
    (kind, strings.joined) ∉ l.compiled := by
  intro hm
  have hmem : strings.joined ∈ (u.cache.partition kind).byContent.map Prod.fst := by
    rw [h.compiled]
    exact List.mem_map.2 ⟨_, List.mem_filter.2 ⟨hm, by simp⟩, rfl⟩
  obtain ⟨⟨key, shared⟩, hentry, rfl⟩ := List.mem_map.1 hmem
  have hlookup := (Option.or_eq_none_iff.1 hg).2
  rw [List.lookup_eq_none_iff] at hlookup
  simpa using hlookup _ hentry

theorem Accounts.call (h : u.Accounts l) (c : CacheCall) : (u.call c).Accounts (l.note u c) := by
  cases c with
  | request strings kind =>
    have hcache : (u.call (.request strings kind)).cache = (u.answer strings kind).cache := rfl
    rw [Ledger.note]
    cases u.response strings kind with
    | hit shared hfound houtcome hhits hcompiles hcontent =>
      rw [houtcome]
      simp only [hfound, Option.isNone_some, Bool.false_eq_true, if_false]
      refine ⟨?_, fun other => ?_, h.nodup⟩
      · rw [hcache, hhits, hcompiles, ← h.answered, Nat.add_right_comm]
      · rw [hcache, hcontent, h.compiled]
    | compiled template hmissing _ houtcome hhits hcompiles hcontent =>
      rw [houtcome]
      simp only [hmissing, Option.isNone_none, if_true]
      refine ⟨?_, fun other => ?_, List.nodup_cons.2 ⟨h.not_mem hmissing, h.nodup⟩⟩
      · rw [hcache, hhits, hcompiles, ← h.answered, Nat.add_assoc]
      · rw [hcache, hcontent]
        by_cases he : other = kind
        · simp [he, h.compiled]
        · simp [he, Ne.symm he, h.compiled]
    | failed errors _ _ houtcome hunchanged =>
      rw [houtcome]
      exact ⟨by rw [hcache, hunchanged, h.answered],
        fun other => by rw [hcache, hunchanged, h.compiled], h.nodup⟩
  | look strings kind => exact ⟨h.answered, h.compiled, h.nodup⟩
  | purge =>
    refine ⟨h.answered, fun kind => ?_, h.nodup⟩
    exact (congrArg _ ((u.cache.sameContent_purge u.alive).content kind)).trans (h.compiled kind)
  | clear => exact ⟨h.answered, fun kind => by cases kind <;> rfl, List.nodup_nil⟩
  | drop id => exact ⟨h.answered, h.compiled, h.nodup⟩

theorem Accounts.run (h : u.Accounts l) (calls : List CacheCall) :
    (u.run calls).Accounts (l.noteAll u calls) := by
  induction calls generalizing u l with
  | nil => exact h
  | cons c calls ih => exact ih (h.call c)

/-- Every content is counted once. -/
theorem Accounts.size_eq (h : u.Accounts l) : u.cache.size = l.compiled.toFinset.card := by
  have hhtml := congrArg List.length (h.compiled .html)
  have hsvg := congrArg List.length (h.compiled .svg)
  simp only [List.length_map] at hhtml hsvg
  have hother : ∀ kc : TemplateKind × String, decide (kc.1 = .svg) = !decide (kc.1 = .html) := by
    rintro ⟨kind, key⟩
    cases kind <;> rfl
  rw [List.toFinset_card_of_nodup h.nodup, List.length_eq_length_filter_add (·.1 = .html),
    TemplateCache.size, ← hhtml]
  simp only [← hother, ← hsvg]
  rfl

/-- Requests for one content share a template until the cache is cleared. Looking tells whether a
request will be a hit, and a request that fails leaves no trace. The counters and the number of
templates are those of the calls. Purging forgets only fragments that are gone, and whoever looks
later does not notice. -/
theorem shares_and_accounts (hc : ∀ c ∈ calls, c.Faithful objects) (owner : Nat)
    (detectDocuments : Bool) :
    let start := new owner detectDocuments
    let u := start.run calls
    (∀ before between strings strings' kind shared shared',
      calls = before ++ .request strings kind :: between → .clear ∉ between →
      ((start.run before).answer strings kind).outcome = .ok shared →
      objects.strings strings'.identity = strings' → strings'.joined = strings.joined →
      (u.answer strings' kind).outcome = .ok shared' → shared = shared') ∧
    (∀ strings kind shared, u.cache.get? strings kind = some shared ↔
      (u.answer strings kind).outcome = .ok shared ∧
        (u.answer strings kind).cache.stats.hits = u.cache.stats.hits + 1) ∧
    (∀ strings kind errors, (u.answer strings kind).outcome = .error errors →
      (u.answer strings kind).cache.size = u.cache.size ∧
        (u.answer strings kind).cache.stats = u.cache.stats ∧
        (u.answer strings kind).cache.get? strings kind = none) ∧
    u.cache.stats.identityHits + u.cache.stats.contentHits + u.cache.stats.compiles =
      (Ledger.noteAll {} start calls).answered ∧
    u.cache.size = (Ledger.noteAll {} start calls).compiled.toFinset.card ∧
    (∀ kind, ((u.call .purge).cache.partition kind).byContent =
        (u.cache.partition kind).byContent ∧
      ∀ entry ∈ (u.cache.partition kind).byIdentity,
        entry ∉ ((u.call .purge).cache.partition kind).byIdentity → entry.1 ∈ u.gone) ∧
    (∀ before later strings kind, calls = before ++ .purge :: later →
      objects.strings strings.identity = strings →
      u.cache.get? strings kind = (start.run (before ++ later)).cache.get? strings kind) := by
  have hstart := coherent_new objects owner detectDocuments
  have haccounts := (accounts_new owner detectDocuments).run calls
  refine ⟨?_, fun strings kind shared => TemplateCache.get?_eq_some_iff, ?_, haccounts.answered,
    haccounts.size_eq, fun kind => ⟨(TemplateCache.sameContent_purge _ _).content kind, ?_⟩, ?_⟩
  · rintro before between strings strings' kind shared shared' rfl hclear hok hs' hjoined hok'
    have hbefore := hstart.run fun c hm => hc c (List.mem_append_left _ hm)
    have hs := hc (.request strings kind) (by simp)
    have hlater : ∀ c ∈ between, c.Faithful objects := fun c hm => hc c (by simp [hm])
    have hkept := (hbefore.call hs).get?_run hlater hclear hs (hbefore.get?_answer hs hok)
    rw [run_append, run_cons] at hok'
    have hfound := (((hbefore.call hs).run hlater).get?_joined hs hs' hjoined).trans hkept
    have hsame := (TemplateCache.get?_eq_some_iff.1 hfound).1.symm.trans hok'
    exact Except.ok.inj hsame
  · intro strings kind errors hfailed
    cases ((new owner detectDocuments).run calls).response strings kind with
    | hit shared _ houtcome | compiled template _ _ houtcome =>
      rw [houtcome] at hfailed
      cases hfailed
    | failed _ hmissing _ _ hunchanged => rw [hunchanged]; exact ⟨rfl, rfl, hmissing⟩
  · rintro ⟨id, shared⟩ hm hgone
    by_contra halive
    refine hgone ?_
    have hkeep : ((new owner detectDocuments).run calls).alive id = true := by
      simpa [alive] using halive
    cases kind <;> exact List.mem_filter.2 ⟨hm, hkeep⟩
  · rintro before later strings kind rfl hs
    have hbefore := hstart.run fun c hm => hc c (List.mem_append_left _ hm)
    have hlater : ∀ c ∈ later, c.Faithful objects := fun c hm => hc c (by simp [hm])
    have hpurged := hbefore.call (c := .purge) trivial
    obtain ⟨_, hend⟩ := hbefore.run hlater
    obtain ⟨_, hend'⟩ := hpurged.run hlater
    rw [run_append, run_cons, run_append]
    exact (hbefore.sameContent_run hpurged (TemplateCache.sameContent_purge _ _) hlater).get? hend
      hend' hs

/-- A template that is asked for, its fragments gone and purged, and a second one of its content. -/
theorem twins_share_and_account :
    let calls := [.request (twin 0) .html, .drop ⟨0⟩, .purge]
    let u := (new 0 true).run calls
    (∃ shared, ((new 0 true).answer (twin 0) .html).outcome = .ok shared ∧
      (u.answer (twin 1) .html).outcome = .ok shared ∧
      u.cache.get? (twin 1) .html = some shared) ∧
    u.cache.stats.identityHits + u.cache.stats.contentHits + u.cache.stats.compiles = 1 ∧
    u.cache.size = 1 := by
  intro calls u
  have hcalls : ∀ c ∈ calls, c.Faithful (.twins ["<p>", "</p>"]) := by
    intro c hc
    simp only [calls, List.mem_cons, List.not_mem_nil, or_false] at hc
    rcases hc with rfl | rfl | rfl
    · rfl
    · trivial
    · trivial
  obtain ⟨hshare, hlook, -, hanswered, hsize, -⟩ := shares_and_accounts hcalls 0 true
  obtain ⟨first, hfirst⟩ := TemplateCache.Answer.ok_of_isSome
    (a := (new 0 true).answer (twin 0) .html) (by decide +kernel)
  obtain ⟨second, hsecond⟩ := TemplateCache.Answer.ok_of_isSome
    (a := u.answer (twin 1) .html) (by decide +kernel)
  obtain rfl := hshare [] [.drop ⟨0⟩, .purge] (twin 0) (twin 1) .html first second rfl (by decide)
    hfirst rfl rfl hsecond
  refine ⟨⟨first, hfirst, hsecond, (hlook _ _ _).2 ⟨hsecond, by decide +kernel⟩⟩, ?_, ?_⟩
  · rw [hanswered]
    decide +kernel
  · rw [hsize]
    decide +kernel

end CacheInUse

end LiveMarkup
