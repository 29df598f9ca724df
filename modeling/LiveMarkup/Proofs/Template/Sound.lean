import LiveMarkup.Proofs.Markup.Kinds

set_option autoImplicit false

/-!
What compiling gives. A node part stands at an empty text of its own; attribute parts stand at
elements, and neither the attributes that are left in the prototype nor two parts of one element
have a name in common.
-/

namespace LiveMarkup

open Branch (labelsOfAll mapAll)
open LiveMarkup.Tree (SameLinks)

theorem Except.ok_of_toOption {ε α : Type} {e : Except ε α} {a : α} (h : e.toOption = some a) :
    e = .ok a := by
  cases e with
  | error e => cases h
  | ok b => exact congrArg Except.ok (Option.some.inj h)

/-- The name of the attribute that a part computes. -/
def TemplatePart.name? (c : TemplatePart) : Option String :=
  match c.kind with
  | .node => none
  | .attribute name _ => some name

/-- Of attributes with different names the first of a name is the only one. -/
theorem eraseP_eq_filter {attributes : List Attribute} (h : (attributes.map (·.name)).Nodup)
    (name : String) :
    attributes.eraseP (·.name == name) = attributes.filter (fun a => !(a.name == name)) := by
  induction attributes with
  | nil => rfl
  | cons a as ih =>
    rw [List.map_cons, List.nodup_cons] at h
    by_cases ha : a.name == name
    · have hrest : as.filter (fun b => !(b.name == name)) = as := by
        rw [List.filter_eq_self]
        intro b hb
        have hne : b.name ≠ name := fun he =>
          h.1 (beq_iff_eq.1 ha ▸ he ▸ List.mem_map_of_mem hb)
        simpa using hne
      rw [List.eraseP_cons, ha, cond_true, List.filter_cons_of_neg (by simpa using ha), hrest]
    · rw [List.eraseP_cons, Bool.eq_false_iff.2 ha, cond_false,
        List.filter_cons_of_pos (by simpa using ha), ih h.2]

namespace Template

def content (t : Template) : Branch NodeKind := t.prototype.content

/-- What the nodes of the prototype are, in pre-order. -/
def kinds (t : Template) : List NodeKind := t.content.labels

/-- The parts at one node agree with what the node is. -/
def Local (kind : NodeKind) (parts : List TemplatePart) : Prop :=
  (∃ part, parts = [part] ∧ part.kind = .node ∧ kind = .text "") ∨
    (∀ c ∈ parts, c.name?.isSome ∧ kind.isElement) ∧
      (kind.attributes.map (·.name) ++ parts.filterMap TemplatePart.name?).Nodup

/-- What one visit of a node does. -/
structure Visits (b b' : Binding) (node : NodeId) (index : Nat) (found : List TemplatePart) :
    Prop where
  accounted : b'.tree.Accounted
  sameLinks : ∀ n, SameLinks b.tree b'.tree n
  kind_other : ∀ n, n ≠ node → b'.tree.kind n = b.tree.kind n
  isElement : (b'.tree.kind node).isElement = (b.tree.kind node).isElement
  parts : b'.parts = b.parts ++ found
  index_eq : ∀ c ∈ found, c.index = index

variable {b b' b'' : Binding} {node : NodeId} {index : Nat} {found found' : List TemplatePart}

theorem Visits.refl (h : b.tree.Accounted) (node : NodeId) (index : Nat) :
    Visits b b node index [] :=
  ⟨h, fun _ => ⟨rfl, rfl, rfl⟩, fun _ _ => rfl, rfl, by simp, by simp⟩

theorem Visits.trans (h : Visits b b' node index found) (h' : Visits b' b'' node index found') :
    Visits b b'' node index (found ++ found') where
  accounted := h'.accounted
  sameLinks n := by
    obtain ⟨hl, hp, hc⟩ := h.sameLinks n
    obtain ⟨hl', hp', hc'⟩ := h'.sameLinks n
    exact ⟨hl'.trans hl, hp'.trans hp, hc'.trans hc⟩
  kind_other n hn := (h'.kind_other n hn).trans (h.kind_other n hn)
  isElement := h'.isElement.trans h.isElement
  parts := by rw [h'.parts, h.parts, List.append_assoc]
  index_eq c hc := (List.mem_append.1 hc).elim (h.index_eq c) (h'.index_eq c)

theorem visits_edit {kind : NodeKind} {t : Tree} (h : Tree.Edits b.tree t node kind)
    (hk : kind.isElement = (b.tree.kind node).isElement) (ht : b'.tree = t)
    (hp : b'.parts = b.parts ++ found) (hi : ∀ c ∈ found, c.index = index) :
    Visits b b' node index found :=
  ⟨ht ▸ h.accounted, fun n => ht ▸ h.sameLinks n, fun _ hn => ht ▸ h.kind_other hn,
    by rw [ht, h.kind_self, hk], hp, hi⟩

theorem edits_removeAttribute {t : Tree} {tag : String} {attributes : List Attribute}
    (h : t.Accounted) (hl : t.contains node = true) (hk : t.kind node = .element tag attributes)
    (hd : (attributes.map (·.name)).Nodup) (name : String) :
    Tree.Edits t (t.removeAttribute node name).1 node
      (.element tag (attributes.filter fun a => !(a.name == name))) := by
  simp only [Tree.removeAttribute, hk]
  split
  · rw [eraseP_eq_filter hd]
    exact h.edits_setKind hl _
  · rename_i hnone
    rw [List.filter_eq_self.2 fun a ha => by simpa using List.find?_eq_none.1 hnone a ha]
    exact hk ▸ h.edits_refl node

/-- Taking an attribute away from an element leaves an element whose other attributes are kept. -/
theorem removeAttribute_element {t : Tree} {tag : String} {attributes : List Attribute}
    (h : t.Accounted) (hl : t.contains node = true) (hk : t.kind node = .element tag attributes)
    (hd : (attributes.map (·.name)).Nodup) (name : String) :
    ∃ rest, Tree.Edits t (t.removeAttribute node name).1 node (.element tag rest) ∧
      rest.Sublist attributes ∧ name ∉ rest.map (·.name) :=
  ⟨_, edits_removeAttribute h hl hk hd name, List.filter_sublist, by simp⟩

variable (index) in
theorem visits_bindAttribute {tag : String} {attributes : List Attribute} {names : List String}
    (h : b.tree.Accounted) (hl : b.tree.contains node = true)
    (hk : b.tree.kind node = .element tag attributes)
    (hd : (attributes.map (·.name) ++ names).Nodup) (holes : List AttributeHole) {a : Attribute}
    (ha : a.name ∉ names) :
    ∃ found rest, Visits b (b.bindAttribute node index holes a).1 node index found ∧
      (b.bindAttribute node index holes a).1.tree.kind node = .element tag rest ∧
      (rest.map (·.name) ++ (names ++ found.filterMap TemplatePart.name?)).Nodup ∧
      ∀ c ∈ found, c.name? = some a.name := by
  obtain ⟨hda, hdn, hdis⟩ := List.nodup_append.1 hd
  obtain ⟨rest, he, hsub, hgone⟩ := removeAttribute_element h hl hk hda a.name
  have hrest : (rest.map (·.name) ++ names).Nodup :=
    ((hsub.map _).append (List.Sublist.refl names)).nodup hd
  have helement : (NodeKind.element tag rest).isElement = (b.tree.kind node).isElement := by
    rw [hk]
    rfl
  simp only [Binding.bindAttribute]
  split
  · exact ⟨[], attributes, ⟨h, fun _ => ⟨rfl, rfl, rfl⟩, fun _ _ => rfl, rfl,
      by simp [Binding.report], by simp⟩, hk, by simpa using hd, by simp⟩
  · split
    · refine ⟨[_], rest, visits_edit he helement rfl rfl (by simp), he.kind_self, ?_, by
        simp [TemplatePart.name?]⟩
      rw [← List.append_assoc]
      change (rest.map (·.name) ++ names ++ [a.name]).Nodup
      refine List.nodup_append.2 ⟨hrest, by simp, ?_⟩
      rintro x hx _ hy rfl
      rw [List.mem_singleton] at hy
      subst hy
      exact (List.mem_append.1 hx).elim hgone ha
    · exact ⟨[], rest, visits_edit he helement rfl (by simp [Binding.report]) (by simp),
        he.kind_self, by simpa using hrest, by simp⟩

variable (index) in
theorem visits_foldl_bindAttribute {tag : String} {attributes marked : List Attribute}
    {names : List String} (h : b.tree.Accounted) (hl : b.tree.contains node = true)
    (hk : b.tree.kind node = .element tag attributes)
    (hd : (attributes.map (·.name) ++ names).Nodup) (hm : (marked.map (·.name)).Nodup)
    (hnew : ∀ a ∈ marked, a.name ∉ names) (holes : List AttributeHole) :
    ∃ found rest, Visits b (marked.foldl
        (fun (b, holes) a => b.bindAttribute node index holes a) (b, holes)).1 node index found ∧
      (marked.foldl (fun (b, holes) a => b.bindAttribute node index holes a)
        (b, holes)).1.tree.kind node = .element tag rest ∧
      (rest.map (·.name) ++ (names ++ found.filterMap TemplatePart.name?)).Nodup ∧
      ∀ c ∈ found, c.name?.isSome := by
  induction marked generalizing b attributes names holes with
  | nil => exact ⟨[], attributes, .refl h node index, hk, by simpa using hd, by simp⟩
  | cons a as ih =>
    rw [List.map_cons, List.nodup_cons] at hm
    obtain ⟨found, rest, hv, hk', hd', hname⟩ :=
      visits_bindAttribute index h hl hk hd holes (hnew a List.mem_cons_self)
    have hl' := ((hv.sameLinks node).1).trans hl
    obtain ⟨found', rest', hv', hk'', hd'', hname'⟩ := ih hv.accounted hl' hk' hd' hm.2 (by
      intro x hx hin
      rcases List.mem_append.1 hin with hin | hin
      · exact hnew x (List.mem_cons_of_mem _ hx) hin
      · obtain ⟨c, hc, hcn⟩ := List.mem_filterMap.1 hin
        rw [hname c hc] at hcn
        exact hm.1 (Option.some.inj hcn ▸ List.mem_map_of_mem hx))
      (b.bindAttribute node index holes a).2
    refine ⟨found ++ found', rest', hv.trans hv', hk'', ?_, ?_⟩
    · rw [List.filterMap_append, ← List.append_assoc names]
      exact hd''
    · intro c hc
      rcases List.mem_append.1 hc with hc | hc
      · rw [hname c hc]
        rfl
      · exact hname' c hc

/-- Reporting changes nothing else. -/
theorem foldl_report {α : Type} (event : α → Event) (left : List α) (b : Binding) :
    let done := left.foldl (fun b x => b.report (event x)) b
    done.tree = b.tree ∧ done.parts = b.parts ∧ done.elements = b.elements ∧
      done.nodeHoles = b.nodeHoles := by
  induction left generalizing b with
  | nil => exact ⟨rfl, rfl, rfl, rfl⟩
  | cons x xs ih => exact ih _

variable (index) in
theorem visits_bindAttributes {tag : String} {attributes : List Attribute}
    (h : b.tree.Accounted) (hl : b.tree.contains node = true)
    (hk : b.tree.kind node = .element tag attributes) (hd : (attributes.map (·.name)).Nodup)
    (holes : List AttributeHole) :
    ∃ found, Visits b (b.bindAttributes node index holes) node index found ∧
      Local ((b.bindAttributes node index holes).tree.kind node) found := by
  have hattributes : b.tree.attributes node = attributes := by
    simp [Tree.attributes, hk, NodeKind.attributes]
  have hmarked (p : Attribute → Bool) : ((attributes.filter p).map (·.name)).Nodup :=
    (List.filter_sublist.map _).nodup hd
  simp only [Binding.bindAttributes, hattributes]
  have hall : (attributes.map Attribute.name ++ []).Nodup := by simpa using hd
  obtain ⟨found, rest, hv, hk', hd', hname⟩ :=
    visits_foldl_bindAttribute index h hl hk hall
      (hmarked fun a => (Text.breakOn marker.toList a.value.toList).isSome) (by simp) holes
  generalize List.foldl _ (b, holes) _ = done at hv hk'
  obtain ⟨ht, hp, -⟩ := foldl_report
    (fun h : AttributeHole => .unboundAttributeValue h.value h.name) done.2 done.1
  refine ⟨found, ⟨ht ▸ hv.accounted, fun n => ht ▸ hv.sameLinks n,
    fun n hn => ht ▸ hv.kind_other n hn, ht ▸ hv.isElement, hp ▸ hv.parts, hv.index_eq⟩, .inr ?_⟩
  rw [ht, hk']
  exact ⟨fun c hc => ⟨hname c hc, rfl⟩, hd'⟩

variable (index) in
/-- A visit of a node keeps what was found elsewhere, and what it finds fits what it leaves. -/
theorem visits_visit (h : b.tree.Accounted) (hl : b.tree.contains node = true)
    (hd : (b.tree.kind node).Distinct) (holes : List Hole) :
    ∃ found, Visits b (b.visit holes node index) node index found ∧
      Local ((b.visit holes node index).tree.kind node) found := by
  have hsame : Visits b b node index [] ∧ Local (b.tree.kind node) [] :=
    ⟨.refl h node index, .inr ⟨by simp, by simpa [NodeKind.Distinct] using hd⟩⟩
  simp only [Binding.visit]
  split
  · rename_i tag attributes hk
    have hda : (attributes.map (·.name)).Nodup := by
      simpa [NodeKind.Distinct, hk, NodeKind.attributes] using hd
    obtain ⟨found, hv, hlocal⟩ := visits_bindAttributes index
      (b := { b with elements := b.elements + 1 }) h hl hk hda _
    exact ⟨found, ⟨hv.accounted, hv.sameLinks, hv.kind_other, hv.isElement, hv.parts,
      hv.index_eq⟩, hlocal⟩
  · rename_i content hk
    split
    · split
      · rename_i value rest hholes hmarker
        have he := h.edits_setKind hl (.text "")
        exact ⟨_, visits_edit he (by rw [hk]; rfl) rfl rfl (by simp),
          .inl ⟨⟨.node, index, value⟩, rfl, rfl, he.kind_self⟩⟩
      · exact ⟨[], hsame⟩
    · exact ⟨[], hsame⟩
  · exact ⟨[], hsame⟩

/-- After the nodes of a list the parts are those found at each of them, and fit it. -/
theorem visits_all {order : List NodeId} (start : Nat) (h : b.tree.Accounted)
    (hl : ∀ n ∈ order, b.tree.contains n = true ∧ (b.tree.kind n).Distinct)
    (hn : order.Nodup) (holes : List Hole) :
    let b' := (order.zipIdx start).foldl (fun b (node, index) => b.visit holes node index) b
    b'.tree.Accounted ∧ (∀ n, SameLinks b.tree b'.tree n) ∧
      (∀ n, n ∉ order → b'.tree.kind n = b.tree.kind n) ∧
      (∀ n, (b'.tree.kind n).isElement = (b.tree.kind n).isElement) ∧
      ∃ found : List (List TemplatePart), b'.parts = b.parts ++ found.flatten ∧
        found.length = order.length ∧
        ∀ i n cs, order[i]? = some n → found[i]? = some cs →
          Local (b'.tree.kind n) cs ∧ ∀ c ∈ cs, c.index = start + i := by
  induction order generalizing b start with
  | nil =>
    exact ⟨h, fun _ => ⟨rfl, rfl, rfl⟩, fun _ _ => rfl, fun _ => rfl, [], by simp, rfl, by simp⟩
  | cons n ns ih =>
    obtain ⟨hnew, hns⟩ := List.nodup_cons.1 hn
    obtain ⟨hln, hdn⟩ := hl n List.mem_cons_self
    obtain ⟨cs, hv, hlocal⟩ := visits_visit start h hln hdn holes
    obtain ⟨hacc, hlinks, hkind, helement, found, hparts, hlen, hfits⟩ :=
      ih (b := b.visit holes n start) (start + 1) hv.accounted (fun m hm => by
        have hne : m ≠ n := fun he => hnew (he ▸ hm)
        obtain ⟨hlm, hdm⟩ := hl m (List.mem_cons_of_mem _ hm)
        exact ⟨((hv.sameLinks m).1).trans hlm, hv.kind_other m hne ▸ hdm⟩) hns
    rw [List.zipIdx_cons, List.foldl_cons]
    refine ⟨hacc, fun m => ?_, fun m hm => ?_, fun m => ?_, cs :: found, ?_, by simp [hlen], ?_⟩
    · obtain ⟨hl₁, hp₁, hc₁⟩ := hv.sameLinks m
      obtain ⟨hl₂, hp₂, hc₂⟩ := hlinks m
      exact ⟨hl₂.trans hl₁, hp₂.trans hp₁, hc₂.trans hc₁⟩
    · rw [List.mem_cons, not_or] at hm
      rw [hkind m hm.2, hv.kind_other m hm.1]
    · rw [helement m]
      by_cases hm : m = n
      · rw [hm, hv.isElement]
      · rw [hv.kind_other m hm]
    · rw [hparts, hv.parts, List.flatten_cons, List.append_assoc]
    · intro i m ds hm hd
      cases i with
      | zero =>
        simp only [List.getElem?_cons_zero, Option.some.injEq] at hm hd
        subst hm hd
        exact ⟨by rw [hkind _ hnew]; exact hlocal, by simpa using hv.index_eq⟩
      | succ i =>
        obtain ⟨hlo, hix⟩ := hfits i m ds hm hd
        exact ⟨hlo, fun c hc => by rw [hix c hc]; omega⟩

/-- What a compiled template keeps: its root is a container, its texts have nothing below them, and
every part stands at a node of the prototype and agrees with it, the parts being in the order of
their nodes. -/
structure Sound (t : Template) : Prop where
  root : t.content.label = .fragment ∨ t.content.label = .document
  leaves : Branch.LeavesAll NodeKind.isText t.content.branches
  index_lt : ∀ c ∈ t.parts, c.index < t.kinds.length
  sorted : t.parts.Pairwise (·.index ≤ ·.index)
  fits : ∀ i kind, t.kinds[i]? = some kind → Local kind (t.parts.filter (·.index == i))

theorem filter_flatten {found : List (List TemplatePart)} {start : Nat}
    (h : ∀ i cs, found[i]? = some cs → ∀ c ∈ cs, c.index = start + i) {i : Nat}
    {cs : List TemplatePart} (hi : found[i]? = some cs) :
    found.flatten.filter (·.index == start + i) = cs := by
  induction found generalizing start i with
  | nil => simp at hi
  | cons ds found ih =>
    have hds : ∀ c ∈ ds, c.index = start := h 0 ds rfl
    have hfound : ∀ i cs, found[i]? = some cs → ∀ c ∈ cs, c.index = start + 1 + i :=
      fun i cs hi c hc => by rw [h (i + 1) cs hi c hc]; omega
    rw [List.flatten_cons, List.filter_append]
    cases i with
    | zero =>
      obtain rfl : ds = cs := by simpa using hi
      have hrest : found.flatten.filter (·.index == start + 0) = [] := by
        rw [List.filter_eq_nil_iff]
        intro c hc
        obtain ⟨es, hes, hce⟩ := List.mem_flatten.1 hc
        obtain ⟨j, hj⟩ := List.getElem?_of_mem hes
        have := hfound j es hj c hce
        simp only [beq_iff_eq]
        omega
      rw [hrest, List.append_nil, List.filter_eq_self]
      exact fun c hc => by simp [hds c hc]
    | succ i =>
      have hrest := ih hfound hi
      have hfirst : ds.filter (·.index == start + (i + 1)) = [] := by
        rw [List.filter_eq_nil_iff]
        intro c hc
        have := hds c hc
        simp only [beq_iff_eq]
        omega
      rw [hfirst, List.nil_append]
      rw [show start + 1 + i = start + (i + 1) by omega] at hrest
      exact hrest

theorem lt_of_mem_flatten {found : List (List TemplatePart)}
    (h : ∀ i (cs : List TemplatePart), found[i]? = some cs → ∀ c ∈ cs, c.index = i)
    {c : TemplatePart}
    (hc : c ∈ found.flatten) : c.index < found.length := by
  obtain ⟨cs, hcs, hcc⟩ := List.mem_flatten.1 hc
  obtain ⟨i, hi⟩ := List.getElem?_of_mem hcs
  rw [h i cs hi c hcc]
  exact (List.getElem?_eq_some_iff.1 hi).1

theorem sorted_flatten {found : List (List TemplatePart)}
    (h : ∀ i (cs : List TemplatePart), found[i]? = some cs → ∀ c ∈ cs, c.index = i) :
    found.flatten.Pairwise (·.index ≤ ·.index) := by
  refine List.pairwise_flatten.2 ⟨fun cs hcs => ?_, List.pairwise_iff_getElem.2 ?_⟩
  · obtain ⟨i, hi⟩ := List.getElem?_of_mem hcs
    exact List.pairwise_of_forall_mem_list fun c hc d hd =>
      Nat.le_of_eq ((h i cs hi c hc).trans (h i cs hi d hd).symm)
  · intro i j hi hj hij c hc d hd
    rw [h i _ (List.getElem?_eq_getElem hi) c hc, h j _ (List.getElem?_eq_getElem hj) d hd]
    exact Nat.le_of_lt hij

/-- What the binding of a prototype leaves. -/
theorem bind_regular {r : Markup.Rooted} {bs : List (Branch NodeId)} (hr : r.Regular bs)
    (hroot : r.tree.kind r.root = .fragment ∨ r.tree.kind r.root = .document)
    (hparsed : ∀ b ∈ mapAll r.tree.kind bs, b.Parsed) (holes : List Hole) :
    Markup.Rooted.Regular ⟨(bind r holes).tree, r.root⟩ bs ∧
      (bind r holes).tree.kind r.root = r.tree.kind r.root ∧
      Branch.LeavesAll NodeKind.isText (mapAll (bind r holes).tree.kind bs) ∧
      ∃ found : List (List TemplatePart), (bind r holes).parts = found.flatten ∧
        found.length = (r.root :: labelsOfAll bs).length ∧
        ∀ i n cs, (r.root :: labelsOfAll bs)[i]? = some n → found[i]? = some cs →
          Local ((bind r holes).tree.kind n) cs ∧ ∀ c ∈ cs, c.index = i := by
  have horder := hr.preorder
  have hn := List.nodup_cons.1 hr.nodup
  -- The root is a container, so its visit finds nothing.
  obtain ⟨b, hb⟩ : ∃ b : Binding, b =
      { tree := r.tree
        nodeHoles := holes.zipIdx.filterMap fun h => if h.1 = .node then some h.2 else none
        events := misplaced holes } := ⟨_, rfl⟩
  have htree : b.tree = r.tree := by rw [hb]
  have hparts : b.parts = [] := by rw [hb]
  have hvisit : b.visit holes r.root 0 = b := by
    rcases hroot with hk | hk <;> simp only [Binding.visit, htree, hk]
  have hfold : (bind r holes).tree = (((labelsOfAll bs).zipIdx 1).foldl
        (fun b (node, index) => b.visit holes node index) b).tree ∧
      (bind r holes).parts = (((labelsOfAll bs).zipIdx 1).foldl
        (fun b (node, index) => b.visit holes node index) b).parts := by
    simp only [bind, horder, List.zipIdx_cons, List.foldl_cons, ← hb, hvisit, Nat.zero_add,
      and_self]
  obtain ⟨hacc, hlinks, hkind, helement, found, hfound, hlen, hfits⟩ := visits_all 1 (b := b)
    (htree ▸ hr.accounted) (fun n (hm : n ∈ labelsOfAll bs) => by
      rw [htree]
      refine ⟨hr.stretch.holds.contains hm, ?_⟩
      have hk : r.tree.kind n ∈ labelsOfAll (mapAll r.tree.kind bs) := by
        rw [Branch.labelsOfAll_mapAll]
        exact List.mem_map_of_mem hm
      obtain ⟨b, hb, hk⟩ := Branch.mem_labelsOfAll.1 hk
      exact (hparsed b hb).distinct _ hk) hn.2 holes
  rw [hfold.1, hfold.2]
  obtain ⟨hlr, hpr, hcr⟩ := hlinks r.root
  have hkr := hkind r.root hn.1
  rw [htree] at hlr hpr hcr hkr
  have hstretch := hr.stretch
  have hholds := hstretch.holds.of_links fun n _ => htree ▸ hlinks n
  refine ⟨⟨hacc, ⟨hlr.trans hstretch.live, hcr.trans hstretch.children, hholds, by simp,
    hstretch.nodup⟩, hpr.trans hr.parent_root⟩, hkr, hholds.leaves_iff.2 fun n hm ht => ?_,
    [] :: found, ?_, by simp [hlen], ?_⟩
  · -- What is a text now was no element before, and the links are the old ones.
    have hbefore : Branch.LeavesAll (!·.isElement) (mapAll r.tree.kind bs) :=
      Branch.leavesAll_iff.2 fun b hb => (hparsed b hb).leaves
    have hold := hstretch.holds.leaves_iff.1 hbefore n hm
    have hnot := helement n
    rw [htree] at hnot
    rw [(hlinks n).2.2, htree]
    refine hold ?_
    rw [Bool.not_eq_true', ← hnot]
    cases hk : Binding.tree _ |>.kind n <;> simp_all [NodeKind.isText, NodeKind.isElement]
  · rw [hfound, hparts]
    rfl
  · intro i n cs hi hc
    cases i with
    | zero =>
      simp only [List.getElem?_cons_zero, Option.some.injEq] at hi hc
      subst hi hc
      rw [hkr]
      exact ⟨.inr ⟨by simp, by rcases hroot with hk | hk <;> simp [hk, NodeKind.attributes]⟩,
        by simp⟩
    | succ i =>
      obtain ⟨hlocal, hindex⟩ := hfits i n cs hi hc
      exact ⟨hlocal, fun c hm => by rw [hindex c hm]; omega⟩

/-- Compiling gives a sound template. -/
theorem sound_compile {strings : TemplateStrings} {kind : TemplateKind} {detectDocuments : Bool}
    {t : Template} (h : (compile strings kind detectDocuments).outcome = .ok t) : t.Sound := by
  simp only [compile] at h
  split at h
  · cases h
  · rename_i r hparse
    obtain ⟨bs, hr, hroot, hparsed⟩ := Markup.parse_ok hparse
    obtain ⟨hreg, hkr, hleaves, found, hparts, hlen, hfits⟩ :=
      bind_regular hr hroot hparsed (Scan.ofStrings strings kind).holes
    have hproto : t.prototype = ⟨(bind r (Scan.ofStrings strings kind).holes).tree, r.root⟩ :=
      congrArg Template.prototype (Except.ok.inj h).symm
    have htparts : t.parts = found.flatten :=
      (congrArg Template.parts (Except.ok.inj h).symm).trans hparts
    have hcontent := hreg.content
    rw [← hproto] at hcontent
    have hkinds : t.kinds = (r.root :: labelsOfAll bs).map t.prototype.tree.kind := by
      rw [kinds, Template.content, hcontent, Branch.labels_node, Branch.labelsOfAll_mapAll, hproto]
      rfl
    have hindex : ∀ i (cs : List TemplatePart), found[i]? = some cs → ∀ c ∈ cs, c.index = i := by
      intro i cs hi
      have hlt : i < (r.root :: labelsOfAll bs).length :=
        hlen ▸ (List.getElem?_eq_some_iff.1 hi).1
      exact (hfits i _ cs (List.getElem?_eq_getElem hlt) hi).2
    refine ⟨?_, ?_, ?_, htparts ▸ sorted_flatten hindex, ?_⟩
    · rw [Template.content, hcontent, Branch.label, hproto]
      exact hkr ▸ hroot
    · rw [Template.content, hcontent, Branch.branches, hproto]
      exact hleaves
    · intro c hc
      rw [htparts] at hc
      rw [hkinds, List.length_map, ← hlen]
      exact lt_of_mem_flatten hindex hc
    · intro i k hk
      rw [hkinds, List.getElem?_map, Option.map_eq_some_iff] at hk
      obtain ⟨n, hn, rfl⟩ := hk
      have hlt : i < found.length := hlen ▸ (List.getElem?_eq_some_iff.1 hn).1
      have hfi := List.getElem?_eq_getElem hlt
      have hfrom : ∀ j ds, found[j]? = some ds → ∀ c ∈ ds, c.index = 0 + j :=
        fun j ds hj c hc => (hindex j ds hj c hc).trans (Nat.zero_add j).symm
      have hfilter := filter_flatten hfrom hfi
      rw [Nat.zero_add] at hfilter
      rw [htparts, hfilter, hproto]
      exact (hfits i n _ hn hfi).1

end Template

end LiveMarkup
