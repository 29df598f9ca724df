import LiveMarkup.Proofs.Markup.Kinds
import LiveMarkup.Proofs.Markup.Landmarks
import LiveMarkup.Proofs.Template.Agreeing
import LiveMarkup.Proofs.Template.Matching

set_option autoImplicit false

/-!
What the tokens of a template become in its prototype. The start tags and comments of the markup are
the elements and comments of the parsed tree, in pre-order, also when the `svg` element around SVG
content is taken away.
-/

namespace LiveMarkup

open Branch (labelsOfAll mapAll)
open Markup

/-- Related lists can be cut at the same place. -/
theorem exists_cut_of_forall₂ {α β : Type} {R : α → β → Prop} {p : α → Bool} {q : β → Bool}
    {as : List α} {front back : List β} {b : β}
    (h : List.Forall₂ R (as.filter p) ((front ++ b :: back).filter q)) (hb : q b = true) :
    ∃ front' a back', as = front' ++ a :: back' ∧ p a = true ∧ R a b ∧
      List.Forall₂ R (front'.filter p) (front.filter q) := by
  rw [List.filter_append, List.filter_cons_of_pos hb] at h
  obtain ⟨hfront, hback⟩ := And.intro (List.forall₂_take_append _ _ _ h)
    (List.forall₂_drop_append _ _ _ h)
  cases hdrop : (as.filter p).drop (front.filter q).length with
  | nil =>
    rw [hdrop] at hback
    cases hback
  | cons a rest =>
    rw [hdrop] at hback
    obtain ⟨hab, -⟩ := List.forall₂_cons.1 hback
    have hsplit := List.take_append_drop (front.filter q).length (as.filter p)
    rw [hdrop] at hsplit
    obtain ⟨as₁, as₂, rfl, htake, hrest⟩ := List.filter_eq_append_iff.1 hsplit.symm
    obtain ⟨skipped, back', rfl, hskipped, ha, -⟩ := List.filter_eq_cons_iff.1 hrest
    refine ⟨as₁ ++ skipped, a, back', by simp, ha, hab, ?_⟩
    have hnone : skipped.filter p = [] := List.filter_eq_nil_iff.2 hskipped
    rw [List.filter_append, hnone, List.append_nil, htake]
    exact hfront

namespace Markup

/-- A token became the node at an index in pre-order: the landmarks in front of it became those in
front of the node. -/
def Became (tokens : List (Token × Span)) (kinds : List NodeKind) (token : Token × Span)
    (index : Nat) : Prop :=
  ∃ front back before kind after, tokens = front ++ token :: back ∧
    kinds = before ++ kind :: after ∧ before.length = index ∧ token.1.Becomes kind ∧
    SameLandmarks (front.map Prod.fst) before

variable {tokens : List (Token × Span)} {kinds : List NodeKind} {token : Token × Span}

theorem Token.Becomes.isLandmark {t : Token} {kind : NodeKind} (h : t.Becomes kind) :
    t.isLandmark = true ∧ kind.isLandmark = true := by
  cases h <;> exact ⟨rfl, rfl⟩

/-- Every landmark became some node. -/
theorem SameLandmarks.exists_index (h : SameLandmarks (tokens.map Prod.fst) kinds)
    (ht : token ∈ tokens) (hl : token.1.isLandmark = true) :
    ∃ index, Became tokens kinds token index := by
  obtain ⟨front, back, rfl⟩ := List.append_of_mem ht
  rw [SameLandmarks, List.map_append, List.map_cons] at h
  obtain ⟨before, kind, after, rfl, hkind, hbecomes, hbefore⟩ := exists_cut_of_forall₂ h.flip hl
  exact ⟨_, front, back, before, kind, after, rfl, rfl, rfl, hbecomes, hbefore.flip⟩

/-- Every landmark was some token. -/
theorem SameLandmarks.exists_token {before after : List NodeKind} {kind : NodeKind}
    (h : SameLandmarks (tokens.map Prod.fst) (before ++ kind :: after))
    (hl : kind.isLandmark = true) : ∃ token front back, tokens = front ++ token :: back ∧
      token.1.Becomes kind ∧ SameLandmarks (front.map Prod.fst) before := by
  obtain ⟨front, t, back, htokens, ht, hbecomes, hfront⟩ := exists_cut_of_forall₂ h hl
  obtain ⟨front', more, rfl, rfl, hmore⟩ := List.map_eq_append_iff.1 htokens
  obtain ⟨token, back', rfl, rfl, -⟩ := List.map_eq_cons_iff.1 hmore
  exact ⟨token, front', back', rfl, hbecomes, hfront⟩

theorem SameLandmarks.countP_eq {tokens : List Token} {p : Token → Bool} {q : NodeKind → Bool}
    (h : SameLandmarks tokens kinds) (hpq : ∀ t k, t.Becomes k → p t = q k)
    (hp : ∀ t, p t = true → t.isLandmark = true) (hq : ∀ k, q k = true → k.isLandmark = true) :
    tokens.countP p = kinds.countP q := by
  have hall {ts : List Token} {ks : List NodeKind} (h : List.Forall₂ Token.Becomes ts ks) :
      ts.countP p = ks.countP q := by
    induction h with
    | nil => rfl
    | cons hb _ ih => rw [List.countP_cons, List.countP_cons, ih, hpq _ _ hb]
  have hlandmarks {α : Type} {l : List α} {p l' : α → Bool} (h : ∀ a, p a = true → l' a = true) :
      l.countP p = (l.filter l').countP p := by
    rw [List.countP_filter]
    exact List.countP_congr fun a _ => by simpa using h a
  rw [hlandmarks hp, hlandmarks hq, hall h]

theorem SameLandmarks.markersOf_eq {tokens : List Token} (h : SameLandmarks tokens kinds) :
    Template.markersOf kinds = tokens.count (.comment marker) := by
  refine (h.countP_eq (fun t k hb => ?_) (fun t ht => ?_) fun k hk => ?_).symm
  · cases hb
    · exact Bool.eq_iff_iff.2 (by simp)
    · exact Bool.eq_iff_iff.2 (by simp [StartTag.element])
  · rw [beq_iff_eq.1 ht]
    rfl
  · rw [of_decide_eq_true hk]
    rfl

theorem length_startTags (tokens : List (Token × Span)) : (startTags tokens).length =
    (tokens.map Prod.fst).countP fun t => t matches .startTag _ := by
  induction tokens with
  | nil => rfl
  | cons t ts ih =>
    obtain ⟨t, span⟩ := t
    rw [List.map_cons, List.countP_cons, ← ih]
    cases t <;> rfl

theorem SameLandmarks.elementsOf_eq (h : SameLandmarks (tokens.map Prod.fst) kinds) :
    Template.elementsOf kinds = (startTags tokens).length := by
  rw [length_startTags]
  refine (h.countP_eq (fun t k hb => ?_) (fun t ht => ?_) fun k hk => ?_).symm
  · cases hb <;> rfl
  · cases t <;> first | rfl | cases ht
  · cases k <;> first | rfl | cases hk

theorem startTags_at {tokens front back : List (Token × Span)} {tag : StartTag} {span : Span}
    {before : List NodeKind} (htokens : tokens = front ++ (.startTag tag, span) :: back)
    (hsame : SameLandmarks (front.map Prod.fst) before) :
    (startTags tokens)[Template.elementsOf before]? = some (tag, span) := by
  rw [htokens, startTags_append, hsame.elementsOf_eq, List.getElem?_append_right (Nat.le_refl _),
    Nat.sub_self]
  rfl

/-- The element that a start tag became, behind as many others as there are start tags in front. -/
theorem Became.startTag {tokens : List (Token × Span)} {kinds : List NodeKind} {tag : StartTag}
    {span : Span} {index : Nat} {kind : NodeKind}
    (h : Became tokens kinds (.startTag tag, span) index) (hkind : kinds[index]? = some kind) :
    ∃ before after, kinds = before ++ kind :: after ∧ before.length = index ∧
      (startTags tokens)[Template.elementsOf before]? = some (tag, span) := by
  obtain ⟨front, back, before, k, after, htokens, rfl, rfl, -, hfront⟩ := h
  rw [List.getElem?_append_right (Nat.le_refl _), Nat.sub_self] at hkind
  obtain rfl : k = kind := Option.some.inj hkind
  exact ⟨before, after, rfl, rfl, startTags_at htokens hfront⟩

end Markup

namespace Branch

/-- The first landmark among parsed branches is the root of one of them. -/
theorem Parsed.first_landmark {bs : List (Branch NodeKind)} (h : ∀ b ∈ bs, b.Parsed)
    {kind : NodeKind} {kinds : List NodeKind}
    (hfirst : (labelsOfAll bs).filter NodeKind.isLandmark = kind :: kinds) :
    ∃ b ∈ bs, b.label = kind := by
  induction bs with
  | nil => cases hfirst
  | cons b bs ih =>
    obtain ⟨hb, hbs⟩ := List.forall_mem_cons.1 h
    obtain ⟨k, kids⟩ := b
    rw [labelsOfAll_cons, labels_node, List.cons_append] at hfirst
    cases hk : k.isLandmark with
    | true =>
      rw [List.filter_cons_of_pos hk] at hfirst
      exact ⟨_, List.mem_cons_self, (List.cons.inj hfirst).1⟩
    | false =>
      -- Only elements have anything below them.
      have hnone : kids = [] := hb.leaves.1 (by cases k <;> first | rfl | cases hk)
      rw [List.filter_cons_of_neg (by simp [hk]), hnone, labelsOfAll_nil, List.nil_append] at hfirst
      obtain ⟨b, hb, hlabel⟩ := ih hbs hfirst
      exact ⟨b, List.mem_cons_of_mem _ hb, hlabel⟩

end Branch

namespace Markup

/-- When the `svg` element around parsed markup is taken away, so is the first landmark. -/
theorem unwrapSvg_landmarks {r : Rooted} {bs : List (Branch NodeId)} {tokens : List Token}
    (h : r.Regular bs) (hparsed : ∀ b ∈ mapAll r.tree.kind bs, b.Parsed)
    (hroot : (r.tree.kind r.root).isLandmark = false)
    (hsame : SameLandmarks (.startTag ⟨"svg", [], false⟩ :: tokens) r.content.labels) :
    SameLandmarks tokens r.unwrapSvg.content.labels := by
  obtain ⟨cs, hr, hkind, hcs⟩ := h.unwrapSvg
  rw [h.content, Branch.labels_node, SameLandmarks, List.filter_cons_of_pos rfl,
    List.filter_cons_of_neg (by simp [hroot])] at hsame
  rw [hr.content, Branch.labels_node, hkind, SameLandmarks,
    List.filter_cons_of_neg (by simp [hroot])]
  obtain ⟨kind, kinds, hbecomes, hrest, hfirst⟩ := List.forall₂_cons_left_iff.1 hsame
  have hsvg : kind.elementName? = some "svg" := by
    cases hbecomes with
    | startTag foreign => cases foreign <;> decide +kernel
  rcases hcs with ⟨-, hnone⟩ | ⟨left, w, kids, right, hbs, hw, hleft, hcs⟩
  · obtain ⟨b, hb, rfl⟩ := Branch.Parsed.first_landmark hparsed hfirst
    simpa [hsvg] using hnone b hb
  · rw [hbs] at hparsed hfirst
    rw [hcs]
    have hnone : (labelsOfAll left).filter NodeKind.isLandmark = [] := by
      cases hl : (labelsOfAll left).filter NodeKind.isLandmark with
      | nil => rfl
      | cons k ks =>
        obtain ⟨b, hb, rfl⟩ := Branch.Parsed.first_landmark
          (fun b hb => hparsed b (List.mem_append_left _ hb)) hl
        rw [Branch.labelsOfAll_append, List.filter_append, hl, List.cons_append] at hfirst
        obtain rfl := (List.cons.inj hfirst).1
        simpa [hsvg] using hleft b hb
    have hlandmark : w.isLandmark = true := by
      cases w <;> first | rfl | simp [Branch.label, NodeKind.elementName?] at hw
    simp only [Branch.labelsOfAll_append, Branch.labelsOfAll_cons, Branch.labels_node,
      List.cons_append, List.filter_append, hnone, List.nil_append,
      List.filter_cons_of_pos hlandmark] at hfirst ⊢
    rwa [(List.cons.inj hfirst).2]

end Markup

theorem TemplateKind.wrap_html (markup : String) : TemplateKind.html.wrap markup = markup := by
  simp [wrap, opening, closing]

namespace Template

theorem errors_of_parse {kind : TemplateKind} {detectDocuments : Bool} {markup : String}
    {r : Rooted} (h : (parse kind detectDocuments markup).outcome = .ok r) :
    (Lexing.ofMarkup (kind.wrap markup)).errors = [] := by
  cases kind with
  | html =>
    rw [TemplateKind.wrap_html]
    simp only [parse] at h
    split at h
    · exact errors_of_parseRooted h
    · exact errors_of_parseRooted h
  | svg =>
    simp only [parse, parseSvgFragment] at h
    cases hp : (parseFragment (svgOpen ++ markup ++ svgClose)).outcome with
    | error errors => simp [hp, Except.map, Except.mapError] at h
    | ok wrapped => exact errors_of_parseRooted hp

/-- The landmarks of the markup of a template are those of the parsed tree. -/
theorem parse_landmarks {kind : TemplateKind} {detectDocuments : Bool} {markup : String}
    {r : Rooted} (h : (parse kind detectDocuments markup).outcome = .ok r) :
    SameLandmarks ((kind.inner (Lexing.ofMarkup (kind.wrap markup)).tokens).map Prod.fst)
      r.content.labels := by
  cases kind with
  | html =>
    rw [TemplateKind.wrap_html]
    simp only [parse] at h
    split at h
    · exact parseRooted_landmarks rfl h
    · exact parseRooted_landmarks rfl h
  | svg =>
    simp only [parse, parseSvgFragment] at h
    cases hp : (parseFragment (svgOpen ++ markup ++ svgClose)).outcome with
    | error errors => simp [hp, Except.map, Except.mapError] at h
    | ok wrapped =>
      rw [hp] at h
      obtain rfl : wrapped.unwrapSvg = r := by simpa [Except.map, Except.mapError] using h
      obtain ⟨bs, hr, hk, hparsed⟩ := parseRooted_parsed hp
      refine unwrapSvg_landmarks hr hparsed (by rw [hk]; rfl) ?_
      have hsame := parseRooted_landmarks rfl hp
      rw [Lexing.ofMarkup, String.toList_append, String.toList_append, List.append_assoc,
        Lexing.scan_svgOpen] at hsame
      rw [Lexing.ofMarkup, TemplateKind.wrap, String.toList_append, String.toList_append,
        List.append_assoc, TemplateKind.opening, Lexing.scan_svgOpen]
      exact hsame

end Template

end LiveMarkup
