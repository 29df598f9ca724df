set_option autoImplicit false

/-!
Positions in markup, counted in bytes of UTF-8.
-/

namespace LiveMarkup.Markup

/-- The bytes from `start` up to, not including, `stop`. -/
structure Span where
  start : Nat
  stop : Nat
  deriving DecidableEq, Repr, Inhabited

namespace Span

def later (s : Span) (bytes : Nat) : Span := ⟨s.start + bytes, s.stop + bytes⟩

/-- Moves towards the beginning, which stops both ends. -/
def earlier (s : Span) (bytes : Nat) : Span := ⟨s.start - bytes, s.stop - bytes⟩

@[simp] theorem earlier_later (s : Span) (bytes : Nat) : (s.later bytes).earlier bytes = s := by
  simp [later, earlier]

end Span

end LiveMarkup.Markup
