import LiveMarkup.Proofs.Markup.Building
import Mathlib.Data.List.Induction

set_option autoImplicit false

/-!
Start tags and comments are landmarks of markup: in the tree they are the elements and comments, in
pre-order. Whatever the other tokens do to the tree, they neither add a landmark nor move one.
-/

namespace LiveMarkup

open Branch (labelsOfAll)

def NodeKind.isLandmark : NodeKind → Bool
  | .element .. | .comment _ => true
  | _ => false

namespace Markup

def Token.isLandmark : Token → Bool
  | .startTag _ | .comment _ => true
  | _ => false

/-- The element of a start tag, inside foreign content or not. -/
def StartTag.element (tag : StartTag) (foreign : Bool) : NodeKind :=
  .element (Builder.elementOf tag foreign).1 (Builder.elementOf tag foreign).2

/-- What the landmarks of markup become in the tree. -/
inductive Token.Becomes : Token → NodeKind → Prop
  | comment {content : String} : Becomes (.comment content) (.comment content)
  | startTag {tag : StartTag} (foreign : Bool) : Becomes (.startTag tag) (tag.element foreign)

theorem Token.Becomes.eq_comment {content : String} {kind : NodeKind}
    (h : (Token.comment content).Becomes kind) : kind = .comment content := by
  cases h
  rfl

/-- The landmarks of tokens become those of nodes, one after the other. -/
def SameLandmarks (tokens : List Token) (kinds : List NodeKind) : Prop :=
  List.Forall₂ Token.Becomes (tokens.filter Token.isLandmark) (kinds.filter NodeKind.isLandmark)

variable {tokens : List Token} {kinds : List NodeKind}

theorem SameLandmarks.append {tokens' : List Token} {kinds' : List NodeKind}
    (h : SameLandmarks tokens kinds) (h' : SameLandmarks tokens' kinds') :
    SameLandmarks (tokens ++ tokens') (kinds ++ kinds') := by
  rw [SameLandmarks, List.filter_append, List.filter_append]
  exact List.rel_append h h'

theorem sameLandmarks_of_becomes {token : Token} {kind : NodeKind} (h : token.Becomes kind) :
    SameLandmarks [token] [kind] := by
  cases h <;> exact .cons (by constructor) .nil

theorem sameLandmarks_of_not {token : Token} (h : token.isLandmark = false)
    (hk : ∀ k ∈ kinds, k.isLandmark = false) : SameLandmarks [token] kinds := by
  have hnone : kinds.filter NodeKind.isLandmark = [] :=
    List.filter_eq_nil_iff.2 fun k hm => by simp [hk k hm]
  rw [SameLandmarks, List.filter_cons_of_neg (by simp [h]), hnone]
  exact .nil

namespace Draft

/-- An element is put where it stands, open or not. -/
theorem branches_startElement (d : Draft) (tag : StartTag) :
    (d.startElement tag).branches =
      (d.put (tag.element (d.foreign || isForeignRoot tag.name))).branches := by
  simp only [startElement]
  generalize (if (d.foreign || isForeignRoot tag.name) = true then tag.selfClosing
    else isVoid _) = stays
  cases stays <;> rfl

theorem branches_closeThrough {name : String} {inner inner' : List (Branch NodeKind)}
    {frames frames' : List Frame} (h : closeThrough name inner frames = some (inner', frames')) :
    Branch.enclose inner' (frames'.map fun f => (f.kind, f.left)) =
      Branch.enclose inner (frames.map fun f => (f.kind, f.left)) := by
  induction frames generalizing inner with
  | nil => cases h
  | cons f fs ih =>
    rw [closeThrough] at h
    split at h
    · obtain ⟨rfl, rfl⟩ := Prod.mk.inj (Option.some.inj h)
      rfl
    · exact ih h

/-- Closing elements leaves the branches as they are. -/
theorem branches_endElement (d : Draft) (name : String) :
    (d.endElement name).branches = d.branches := by
  rw [endElement]
  split
  · rename_i inner frames h
    exact branches_closeThrough h
  · rfl

/-- The nodes in front of what the innermost open element holds. -/
def outside : List Frame → List NodeKind
  | [] => []
  | f :: fs => outside fs ++ labelsOfAll f.left ++ [f.kind]

/-- All nodes in pre-order. -/
def labels (d : Draft) : List NodeKind := outside d.frames ++ labelsOfAll d.inner

theorem labelsOfAll_branches (d : Draft) : labelsOfAll d.branches = d.labels := by
  obtain ⟨root, inner, frames⟩ := d
  simp only [branches, labels]
  induction frames generalizing inner with
  | nil => rfl
  | cons f fs ih => simp [Branch.enclose, ih, outside]

variable {d : Draft} {token : Token}

theorem labels_put (d : Draft) (kind : NodeKind) : (d.put kind).labels = d.labels ++ [kind] := by
  simp [put, labels]

/-- Text becomes a node, or more of a text. -/
theorem landmarks_addText (d : Draft) (content : String) :
    (d.addText content).labels.filter NodeKind.isLandmark =
      d.labels.filter NodeKind.isLandmark := by
  unfold addText
  split
  · rfl
  split
  · rename_i before below hlast
    obtain ⟨front, hfront⟩ := List.getLast?_eq_some_iff.1 hlast
    simp [labels, hfront, NodeKind.isLandmark]
  · simp [labels_put, NodeKind.isLandmark]

theorem labels_startElement (d : Draft) (tag : StartTag) :
    (d.startElement tag).labels =
      d.labels ++ [tag.element (d.foreign || isForeignRoot tag.name)] := by
  rw [← labelsOfAll_branches, branches_startElement, labelsOfAll_branches, labels_put]

theorem labels_endElement (d : Draft) (name : String) : (d.endElement name).labels = d.labels := by
  rw [← labelsOfAll_branches, branches_endElement, labelsOfAll_branches]

theorem sameLandmarks_add (h : SameLandmarks tokens d.labels) (token : Token) :
    SameLandmarks (tokens ++ [token]) (d.add token).labels := by
  cases token with
  | text content | rawText element content =>
    rw [SameLandmarks, add, landmarks_addText, List.filter_append]
    exact (List.append_nil _).symm ▸ h
  | comment content =>
    rw [add, labels_put]
    exact h.append (sameLandmarks_of_becomes .comment)
  | doctype name =>
    rw [add]
    split
    · rw [labels_put]
      exact h.append (sameLandmarks_of_not rfl (by simp [NodeKind.isLandmark]))
    · simpa using h.append (sameLandmarks_of_not rfl (by simp : ∀ k ∈ [], _))
  | startTag tag =>
    rw [add, labels_startElement]
    exact h.append (sameLandmarks_of_becomes (.startTag _))
  | endTag name =>
    rw [add, labels_endElement]
    simpa using h.append (sameLandmarks_of_not rfl (by simp : ∀ k ∈ [], _))

/-- The landmarks of tokens are those of their draft. -/
theorem sameLandmarks_ofTokens {root : NodeKind} (hroot : root.isLandmark = false)
    (tokens : List Token) : SameLandmarks tokens (ofTokens root tokens).content.labels := by
  have hlabels : SameLandmarks tokens (ofTokens root tokens).labels := by
    induction tokens using List.reverseRecOn with
    | nil => exact .nil
    | append_singleton tokens token ih =>
      rw [ofTokens, List.foldl_append]
      exact sameLandmarks_add ih token
  rw [content, Branch.labels_node, root_ofTokens, labelsOfAll_branches]
  rwa [SameLandmarks, List.filter_cons_of_neg (by simp [hroot])]

end Draft

theorem parseRooted_landmarks {kind : NodeKind} {markup : String} {r : Rooted}
    (hkind : kind.isLandmark = false) (h : (parseRooted kind markup).outcome = .ok r) :
    SameLandmarks ((Lexing.ofMarkup markup).tokens.map Prod.fst) r.content.labels := by
  obtain ⟨bs, -, hcontent⟩ := parseRooted_ok h
  rw [hcontent]
  exact Draft.sameLandmarks_ofTokens hkind _

end Markup

end LiveMarkup
