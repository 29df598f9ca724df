import LiveMarkup.Proofs.Markup.Kinds
import LiveMarkup.Proofs.Markup.Landmarks
import LiveMarkup.Proofs.Markup.TextContent
import LiveMarkup.Tree.Html

set_option autoImplicit false

/-!
What writing drops of a parsed tree. A void element is written without what is inside, whatever its
place. Outside foreign content nothing is ever inside; in foreign content the tree opens an element
of any name, and what is put into a void one does not come out again.
-/

namespace LiveMarkup

open Branch (enclose)

/-- Whether a node is an element that is written without content. -/
def NodeKind.isVoid (kind : NodeKind) : Bool := kind.elementName?.any Markup.isVoid

/-- Whether a node is written without what is below it. -/
def NodeKind.isWrittenAlone : NodeKind → Bool
  | .fragment | .document => false
  | .element name _ => Markup.isVoid name
  | .doctype _ | .comment _ | .text _ => true

namespace Html

mutual

/-- The nodes that writing comes to. -/
def reached : Branch NodeKind → Branch NodeKind
  | .node kind bs => .node kind (if kind.isWrittenAlone then [] else reachedAll bs)

def reachedAll : List (Branch NodeKind) → List (Branch NodeKind)
  | [] => []
  | b :: bs => reached b :: reachedAll bs

end

mutual

/-- The other nodes make no difference to what is written. -/
theorem write_reached (style : Style) (raw : Bool) (b : Branch NodeKind) :
    write style raw (reached b) = write style raw b := by
  match b with
  | .node .fragment bs | .node .document bs =>
    simp [reached, NodeKind.isWrittenAlone, write, writeAll_reachedAll style false bs]
  | .node (.doctype name) bs | .node (.comment content) bs | .node (.text content) bs =>
    simp [reached, write]
  | .node (.element name attributes) bs =>
    have halone : (NodeKind.element name attributes).isWrittenAlone = Markup.isVoid name := rfl
    rw [reached, halone, write, write]
    cases Markup.isVoid name with
    | true => rfl
    | false => simp [writeAll_reachedAll style (Markup.isRawText name) bs]

theorem writeAll_reachedAll (style : Style) (raw : Bool) (bs : List (Branch NodeKind)) :
    writeAll style raw (reachedAll bs) = writeAll style raw bs := by
  match bs with
  | [] => rfl
  | b :: bs => rw [reachedAll, writeAll, writeAll, write_reached, writeAll_reachedAll]

end

mutual

/-- All nodes are reached if those that are written alone have nothing below them. -/
theorem reached_eq_self_iff (b : Branch NodeKind) :
    reached b = b ↔ b.Leaves NodeKind.isWrittenAlone := by
  match b with
  | .node kind bs =>
    rw [reached, Branch.leaves_node, Branch.node.injEq, ← reachedAll_eq_self_iff bs]
    cases kind.isWrittenAlone with
    | true => cases bs <;> simp [reachedAll]
    | false => simp

theorem reachedAll_eq_self_iff (bs : List (Branch NodeKind)) :
    reachedAll bs = bs ↔ Branch.LeavesAll NodeKind.isWrittenAlone bs := by
  match bs with
  | [] => simp [reachedAll]
  | b :: bs =>
    rw [reachedAll, List.cons.injEq, reached_eq_self_iff b, reachedAll_eq_self_iff bs,
      Branch.leavesAll_cons]

end

end Html

namespace Branch

variable {q : Bool → NodeKind → Bool} {foreign : Bool} {bs cs : List (Branch NodeKind)}

mutual

/-- Nodes that `q` tells, by whether they are in foreign content, have nothing below them. -/
def LeavesIn (q : Bool → NodeKind → Bool) (foreign : Bool) : Branch NodeKind → Prop
  | .node kind bs => (q (foreign || kind.isForeignRoot) kind = true → bs = []) ∧
      LeavesInAll q (foreign || kind.isForeignRoot) bs

def LeavesInAll (q : Bool → NodeKind → Bool) (foreign : Bool) : List (Branch NodeKind) → Prop
  | [] => True
  | b :: bs => b.LeavesIn q foreign ∧ LeavesInAll q foreign bs

end

@[simp] theorem leavesInAll_nil : LeavesInAll q foreign [] := trivial

@[simp] theorem leavesInAll_append :
    LeavesInAll q foreign (bs ++ cs) ↔ LeavesInAll q foreign bs ∧ LeavesInAll q foreign cs := by
  induction bs with
  | nil => simp
  | cons b bs ih => rw [List.cons_append, LeavesInAll, LeavesInAll, ih, and_assoc]

@[simp] theorem leavesInAll_node {kind : NodeKind} :
    LeavesInAll q foreign [.node kind bs] ↔
      (q (foreign || kind.isForeignRoot) kind = true → bs = []) ∧
        LeavesInAll q (foreign || kind.isForeignRoot) bs := by
  rw [LeavesInAll, LeavesInAll, and_true, LeavesIn]

mutual

theorem leavesIn_const {p : NodeKind → Bool} (foreign : Bool) (b : Branch NodeKind) :
    b.LeavesIn (fun _ => p) foreign ↔ b.Leaves p := by
  match b with
  | .node kind bs => rw [LeavesIn, leaves_node, leavesInAll_const]

theorem leavesInAll_const {p : NodeKind → Bool} (foreign : Bool) (bs : List (Branch NodeKind)) :
    LeavesInAll (fun _ => p) foreign bs ↔ LeavesAll p bs := by
  match bs with
  | [] => simp
  | b :: bs => rw [LeavesInAll, leavesAll_cons, leavesIn_const, leavesInAll_const]

end

mutual

/-- Among parsed branches only void elements can hide anything. -/
theorem leaves_isWrittenAlone {b : Branch NodeKind} (h : b.Leaves (!·.isElement)) :
    b.Leaves NodeKind.isWrittenAlone ↔ b.Leaves NodeKind.isVoid := by
  match b with
  | .node kind bs =>
    rw [leaves_node, leaves_node, leavesAll_isWrittenAlone h.2]
    refine and_congr_left fun _ => ?_
    cases kind with
    | element name attributes => rfl
    | _ => simp [h.1 rfl]

theorem leavesAll_isWrittenAlone {bs : List (Branch NodeKind)} (h : LeavesAll (!·.isElement) bs) :
    LeavesAll NodeKind.isWrittenAlone bs ↔ LeavesAll NodeKind.isVoid bs := by
  match bs with
  | [] => simp
  | b :: bs =>
    rw [leavesAll_cons, leavesAll_cons, leaves_isWrittenAlone h.1, leavesAll_isWrittenAlone h.2]

end

end Branch

namespace Markup

open Branch (LeavesInAll leavesInAll_append leavesInAll_node)

variable {q : Bool → NodeKind → Bool} {fs : List Frame}

/-- Open elements that know whether they are in foreign content; outside it none is void. -/
def Frame.AllPlaced : List Frame → Prop
  | [] => True
  | f :: fs => f.foreign = (inForeign fs || isForeignRoot f.name) ∧
    (f.foreign = false → isVoid f.name = false) ∧ AllPlaced fs

theorem Frame.AllPlaced.of_append {front : List Frame} (h : Frame.AllPlaced (front ++ fs)) :
    Frame.AllPlaced fs := by
  induction front with
  | nil => exact h
  | cons f front ih => exact ih h.2.2

/-- Whether a token is a node, wherever it stands in an open element. -/
def Token.isContent : Token → Bool
  | .text content | .rawText _ content => !content.isEmpty
  | .comment _ | .startTag _ => true
  | .doctype _ | .endTag _ => false

namespace Draft

variable {d : Draft}

/-- Whether the innermost open element is one that `q` tells. -/
def isInside (q : Bool → NodeKind → Bool) (d : Draft) : Bool :=
  d.frames.head?.any fun f => q f.foreign f.kind

/-- Whether no token puts a node into an element that `q` tells. -/
def sparesAll (q : Bool → NodeKind → Bool) (d : Draft) : List Token → Bool
  | [] => true
  | t :: ts => !(t.isContent && d.isInside q) && (d.add t).sparesAll q ts

/-- More in the innermost open element. -/
theorem leavesInAll_enclose {xs ys : List (Branch NodeKind)} (hfs : Frame.AllPlaced fs)
    (hys : ys ≠ []) :
    LeavesInAll q false (Branch.enclose (xs ++ ys) (fs.map fun f => (f.kind, f.left))) ↔
      LeavesInAll q false (Branch.enclose xs (fs.map fun f => (f.kind, f.left))) ∧
        LeavesInAll q (inForeign fs) ys ∧ fs.head?.any (fun f => q f.foreign f.kind) = false := by
  induction fs generalizing xs ys with
  | nil => simp [Branch.enclose, inForeign]
  | cons f fs ih =>
    obtain ⟨hflag, -, hfs⟩ := hfs
    have hroot : f.kind.isForeignRoot = isForeignRoot f.name := rfl
    have hinside : inForeign (f :: fs) = f.foreign := rfl
    simp only [List.map_cons, Branch.enclose, ih hfs (List.cons_ne_nil _ _), leavesInAll_node,
      hroot, ← hflag, hinside, leavesInAll_append, List.append_eq_nil_iff, hys, and_false,
      List.head?_cons, Option.any_some]
    cases q f.foreign f.kind with
    | true => simp
    | false =>
      simp only [Bool.false_eq_true, false_implies, true_and, and_true]
      tauto

theorem leavesInAll_put (hfs : Frame.AllPlaced d.frames) (kind : NodeKind) :
    LeavesInAll q false (d.put kind).branches ↔
      LeavesInAll q false d.branches ∧ d.isInside q = false := by
  rw [branches, put, leavesInAll_enclose hfs (List.cons_ne_nil _ _)]
  simp [branches, isInside]

theorem leavesInAll_addText (hfs : Frame.AllPlaced d.frames)
    (hq : ∀ foreign content, q foreign (.text content) = false) (content : String) :
    LeavesInAll q false (d.addText content).branches ↔
      LeavesInAll q false d.branches ∧ (!content.isEmpty && d.isInside q) = false := by
  unfold addText
  cases hempty : content.isEmpty with
  | true => simp
  | false =>
    simp only [Bool.false_eq_true, if_false, Bool.not_false, Bool.true_and]
    split
    · rename_i before below hlast
      obtain ⟨front, hfront⟩ := List.getLast?_eq_some_iff.1 hlast
      -- The element has a text already, so that this one changes nothing.
      have hkept (content : String) :
          LeavesInAll q false (Branch.enclose (front ++ [.node (.text content) below])
            (d.frames.map fun f => (f.kind, f.left))) ↔
          LeavesInAll q false (Branch.enclose front (d.frames.map fun f => (f.kind, f.left))) ∧
            LeavesInAll q (inForeign d.frames) below ∧ d.isInside q = false := by
        rw [leavesInAll_enclose hfs (List.cons_ne_nil _ _), leavesInAll_node]
        simp [hq, isInside, NodeKind.isForeignRoot, NodeKind.elementName?]
      rw [branches, branches, hfront, List.dropLast_concat, hkept, hkept]
      tauto
    · exact leavesInAll_put hfs _

/-- One more token. -/
theorem leavesInAll_add (hfs : Frame.AllPlaced d.frames)
    (hq : ∀ foreign content, q foreign (.text content) = false) (token : Token) :
    LeavesInAll q false (d.add token).branches ↔
      LeavesInAll q false d.branches ∧ (token.isContent && d.isInside q) = false := by
  cases token with
  | text content | rawText element content => exact leavesInAll_addText hfs hq content
  | comment content => exact leavesInAll_put hfs _
  | doctype name =>
    rw [add]
    split
    · rename_i hdoctype
      have hframes : d.frames = [] := by
        simpa using (Bool.and_eq_true_iff.1 hdoctype).1
      rw [leavesInAll_put hfs]
      simp [isInside, hframes, Token.isContent]
    · simp [Token.isContent]
  | startTag tag =>
    rw [add, branches_startElement, leavesInAll_put hfs]
    simp [Token.isContent]
  | endTag name => simp [add, branches_endElement, Token.isContent]

theorem frames_addText (content : String) : (d.addText content).frames = d.frames := by
  unfold addText
  split
  · rfl
  · split <;> rfl

theorem allPlaced_add (hfs : Frame.AllPlaced d.frames) (token : Token) :
    Frame.AllPlaced (d.add token).frames := by
  cases token with
  | text content | rawText element content =>
    rw [add, frames_addText]
    exact hfs
  | comment content => exact hfs
  | doctype name =>
    rw [add]
    split <;> exact hfs
  | startTag tag =>
    rw [add, startElement]
    simp only
    obtain ⟨stays, hstays⟩ : ∃ stays, stays = (if (d.foreign || isForeignRoot tag.name) = true
      then tag.selfClosing
      else isVoid (Builder.elementOf tag (d.foreign || isForeignRoot tag.name)).1) := ⟨_, rfl⟩
    rw [← hstays]
    cases stays with
    | true => exact hfs
    | false =>
      refine ⟨?_, fun hforeign => ?_, hfs⟩
      · rw [Tracks.isForeignRoot_elementOf]
        rfl
      · rw [if_neg (by simpa using hforeign)] at hstays
        exact hstays.symm
  | endTag name =>
    rw [add, endElement]
    split
    · rename_i inner frames hclose
      obtain ⟨f, -, hsplit⟩ := closeThrough_frames hclose
      rw [hsplit, List.append_cons] at hfs
      exact hfs.of_append
    · exact hfs

/-- All tokens. -/
theorem leavesInAll_addAll (hq : ∀ foreign content, q foreign (.text content) = false)
    (hfs : Frame.AllPlaced d.frames) (tokens : List Token) :
    LeavesInAll q false (tokens.foldl add d).branches ↔
      LeavesInAll q false d.branches ∧ d.sparesAll q tokens = true := by
  induction tokens generalizing d with
  | nil => simp [sparesAll]
  | cons t ts ih =>
    rw [List.foldl_cons, ih (allPlaced_add hfs t), leavesInAll_add hfs hq, sparesAll,
      Bool.and_eq_true, Bool.not_eq_true', and_assoc]

/-- Outside foreign content no void element is open. -/
theorem sparesAll_outside (hfs : Frame.AllPlaced d.frames) (tokens : List Token) :
    d.sparesAll (fun foreign kind => !foreign && kind.isVoid) tokens = true := by
  induction tokens generalizing d with
  | nil => rfl
  | cons t ts ih =>
    have hinside : d.isInside (fun foreign kind => !foreign && kind.isVoid) = false := by
      unfold isInside
      cases hframes : d.frames with
      | nil => rfl
      | cons f fs =>
        have hvoid : f.foreign = false → f.kind.isVoid = false := (hframes ▸ hfs).2.1
        cases hforeign : f.foreign <;> simp [hforeign, hvoid]
    rw [sparesAll, hinside, ih (allPlaced_add hfs t)]
    simp

end Draft

/-- Markup that never puts anything into a void element. -/
def KeepsVoidsEmpty (markup : String) : Prop :=
  Draft.sparesAll (fun _ => NodeKind.isVoid) { root := .fragment }
    ((Lexing.ofMarkup markup).tokens.map Prod.fst) = true

instance (markup : String) : Decidable (KeepsVoidsEmpty markup) :=
  inferInstanceAs (Decidable (_ = true))

/-- Of the tree of any markup, writing reaches every node exactly if the markup puts nothing into a
void element; outside foreign content it never does. -/
theorem reached_of_parseFragment {markup : String} {r : Rooted}
    (h : (parseFragment markup).outcome = .ok r) :
    r.content.LeavesIn (fun foreign kind => !foreign && kind.isVoid) false ∧
      (r.content.Leaves NodeKind.isVoid ↔ KeepsVoidsEmpty markup) ∧
      (Html.reached r.content = r.content ↔ KeepsVoidsEmpty markup) := by
  obtain ⟨bs, hregular, hkind, hparsed⟩ := parseRooted_parsed h
  obtain ⟨-, -, hdraft⟩ := parseRooted_ok h
  have hcontent := hregular.content
  rw [hkind] at hcontent
  rw [hcontent, Draft.content, Draft.root_ofTokens, Branch.node.injEq] at hdraft
  have hplaced : Frame.AllPlaced ({ root := .fragment } : Draft).frames := trivial
  have hnone : ∀ q, LeavesInAll q false ({ root := .fragment } : Draft).branches := fun q => by
    simp [Draft.branches, Branch.enclose]
  have hvoid : Branch.LeavesAll NodeKind.isVoid (Branch.mapAll r.tree.kind bs) ↔
      KeepsVoidsEmpty markup := by
    rw [← Branch.leavesInAll_const false, hdraft.2, Draft.ofTokens,
      Draft.leavesInAll_addAll (fun _ _ => rfl) hplaced]
    exact and_iff_right (hnone _)
  rw [hcontent]
  refine ⟨⟨by simp [NodeKind.isVoid, NodeKind.elementName?], ?_⟩, ?_, ?_⟩
  · rw [hdraft.2]
    exact (Draft.leavesInAll_addAll (fun _ _ => by simp [NodeKind.isVoid, NodeKind.elementName?])
      hplaced _).2 ⟨hnone _, Draft.sparesAll_outside hplaced _⟩
  · rw [Branch.leaves_node, hvoid]
    exact and_iff_right fun hk => by cases hk
  · rw [Html.reached_eq_self_iff, Branch.leaves_node, Branch.leavesAll_isWrittenAlone
      (Branch.leavesAll_iff.2 fun b hb => (hparsed b hb).leaves), hvoid]
    exact and_iff_right fun hk => by cases hk

/-- A line break in a drawing, written as empty, and one around it. -/
def brokenLines : String := "<p>a<br>b</p><svg><text>c<br/>d</text></svg>"

theorem brokenLines_reached : ∃ r, (parseFragment brokenLines).outcome = .ok r ∧
    KeepsVoidsEmpty brokenLines ∧ Html.reached r.content = r.content := by
  have hok : (parseFragment brokenLines).outcome.isOk = true := by decide +kernel
  have hkeeps : KeepsVoidsEmpty brokenLines := by decide +kernel
  cases h : (parseFragment brokenLines).outcome with
  | error errors =>
    rw [h] at hok
    cases hok
  | ok r => exact ⟨r, rfl, hkeeps, (reached_of_parseFragment h).2.2.2 hkeeps⟩

/-- A line break that is left open in a drawing takes the text, and the text is not written. -/
theorem not_reached_of_open_void :
    ∃ r, (parseFragment "<svg><br>x</svg>").outcome = .ok r ∧
      Html.reached r.content ≠ r.content ∧ r.tree.toHtml r.root {} = "<svg><br></svg>" := by
  have hdraft : (Draft.ofTokens .fragment ((Lexing.ofMarkup
      "<svg><br>x</svg>").tokens.map Prod.fst)).content = .node .fragment
        [.node (.element "svg" []) [.node (.element "br" []) [.node (.text "x") []]]] := by
    cbv
  have hok : (parseFragment "<svg><br>x</svg>").outcome.isOk = true := by decide +kernel
  cases h : (parseFragment "<svg><br>x</svg>").outcome with
  | error errors =>
    rw [h] at hok
    cases hok
  | ok r =>
    obtain ⟨bs, -, hcontent⟩ := parseRooted_ok h
    rw [hdraft] at hcontent
    refine ⟨r, rfl, fun hreached => ?_, ?_⟩
    · rw [Html.reached_eq_self_iff, hcontent] at hreached
      have hbr : (NodeKind.element "br" []).isWrittenAlone = true := by decide +kernel
      cases hreached.2.1.2.1.1 hbr
    · rw [Tree.toHtml, show r.tree.content r.root = _ from hcontent]
      decide +kernel

end Markup

end LiveMarkup
