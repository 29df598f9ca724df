import LiveMarkup.Proofs.Render.Rerendering
import LiveMarkup.Proofs.Value.Writing

set_option autoImplicit false

/-!
Rendering to HTML. Copying prototypes, binding and patching parts and writing the tree in the end
comes to one walk over the prototypes.
-/

namespace LiveMarkup

open Branch (mapAll)

variable {objects : Objects} {known : Registry} {root : RenderRoot} {label closing : Nat → NodeId}
  {shown : List (Shown NodeId)} {f : List (Branch NodeId)}

/-- Nodes that are exactly like branches are those branches. -/
theorem Branch.Like.eq {kind : NodeId → NodeKind} {bs : List (Branch NodeKind)}
    (h : Branch.Like true kind f bs) : mapAll kind f = bs := by
  have hfst := congrArg (mapAll Prod.fst) h
  rw [Branch.mapAll_mapAll, Branch.mapAll_mapAll] at hfst
  exact hfst.trans (Branch.mapAll_id bs)

/-- The HTML of a root is that of its copy. -/
theorem RenderRoot.Stands.toHtml (h : root.Stands objects known true label closing shown f)
    (style : Html.Style) :
    root.toHtml style = Html.writeAll style false (mapAll root.tree.kind f) := by
  rw [RenderRoot.toHtml, Tree.toHtml, h.content]
  rcases (known.sound _ h.has).kindAt_zero with hk | hk <;> rw [hk, Html.write]

/-- Where no deferred value is fulfilled, rendering writes what the result shows. -/
theorem Host.Reachable.render_eq_write {h : Host} (hh : h.Reachable objects) {r : Renderer}
    (hr : r ∈ h.renderers) {s : Setting} (hs : s.deferreds.Faithful objects) {t : TemplateResult}
    (ht : t.Faithful objects) (hout : (Value.ofResult t).Outstanding s.deferreds) {html : String}
    (hok : (r.render s t).result = .ok html) :
    t.write (r.render s t).renderer.cache.get? r.config.style r.config.strictValueCount =
      some html := by
  obtain ⟨known, hsound⟩ := hh.sound
  obtain ⟨i, hi⟩ := List.getElem?_of_mem hr
  obtain ⟨known', ha, hok', -⟩ :=
    Renderer.renderRoot_spec (s := s) (hsound.renderers i r hi).2 hs ht true
  obtain ⟨root, hroot, rfl⟩ : ∃ root, (r.renderRoot s t).result = .ok root ∧
      root.toHtml r.config.style = html := Renderer.render_ok_iff.1 hok
  obtain ⟨label, closing, shown, f, hst, -, hshows⟩ := hok' root hroot
  obtain ⟨bs, hdenote, hlike⟩ := hshows ⟨hout, fun he => by cases he⟩
    (r.renderRoot s t).renderer.cache.get? fun _ _ _ _ hg => hg
  rw [ha.config] at hdenote
  have hwrite : t.write (r.renderRoot s t).renderer.cache.get? r.config.style
      r.config.strictValueCount = some (Html.writeAll r.config.style false bs) := by
    rw [TemplateResult.write, Value.write_eq_denote, hdenote]
    rfl
  rw [hst.toHtml, hlike.eq]
  exact hwrite

/-- What stands in for a value that is to come is written. -/
theorem Host.withParagraph_render_eq_write :
    ∃ r ∈ Host.withParagraph.renderers,
      let t := paragraph [.absent, .placeholder ⟨0⟩ (.primitive (.str "a < b"))]
      t.write (r.render {} t).renderer.cache.get? r.config.style r.config.strictValueCount =
        some "<p>a &lt; b</p>" := by
  refine ⟨_, List.getElem_mem Host.withParagraph_length.2, ?_⟩
  exact Host.Reachable.render_eq_write Host.reachable_withParagraph
    (List.getElem_mem Host.withParagraph_length.2) Setting.faithful_empty
    (t := paragraph [.absent, .placeholder ⟨0⟩ (.primitive (.str "a < b"))])
    ⟨rfl, trivial, trivial, trivial⟩ (fun d hd outcome hp => by simp [Deferreds.poll] at hp)
    (Except.ok_of_toOption (by decide +kernel))

end LiveMarkup
