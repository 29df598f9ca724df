import LiveMarkup.Proofs.Part.Ending
import LiveMarkup.Proofs.Render.Outstanding

set_option autoImplicit false

/-!
Renders, updates and flushes come to an end, if the values that they are given and the deferred ones
that the root waits for lead to nothing that leads back to itself. A host can give a deferred value
an outcome that leads back to it, and then a part is never done.
-/

namespace LiveMarkup

variable {s : Setting} {t : TemplateResult}

namespace RenderRoot

theorem flush_ends {root : RenderRoot}
    (hheld : ∀ d ∈ Value.deferredsOfAll root.held, s.deferreds.Grounded d) (r : Renderer) :
    (root.flush r s).result.1.error ≠ some .endlessValue :=
  Part.flushAll_ends { s with strictValueCount := r.config.strictValueCount } (root.world r) {} []
    root.parts hheld

end RenderRoot

namespace Renderer

end Renderer

end LiveMarkup
