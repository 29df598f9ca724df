import LiveMarkup.Proofs.Text.Separators
import LiveMarkup.Proofs.Value.Faithful

set_option autoImplicit false

/-!
Fragments and their joined text. The marker does not overlap itself, so fragments that do not hold
it can be read off their joined text; fragments that do hold it may be joined to the text of others.
-/

namespace LiveMarkup

open Text (Unbordered)

theorem marker_unbordered : Unbordered marker.toList := by
  unfold Unbordered marker
  decide

namespace TemplateStrings

/-- No fragment holds the marker. -/
def Unmarked (s : TemplateStrings) : Prop := ∀ f ∈ s.fragments, ¬ marker.toList <:+: f.toList

theorem fragments_eq_of_joined {s s' : TemplateStrings} (hs : s.Unmarked) (hs' : s'.Unmarked)
    (h : s.joined = s'.joined) : s.fragments = s'.fragments := by
  have hchars := congrArg String.toList h
  rw [joined, joined, String.toList_intercalate, String.toList_intercalate] at hchars
  refine List.map_injective_iff.2 (fun _ _ he => String.toList_inj.1 he)
    (Text.intercalate_inj marker_unbordered ?_ ?_ (by simp [fragments]) (by simp [fragments])
      hchars)
  · exact List.forall_mem_map.2 hs
  · exact List.forall_mem_map.2 hs'

end TemplateStrings

/-- The joined text of fragments tells which fragments they are. -/
def Objects.Telling (objects : Objects) : Prop :=
  ∀ id id', (objects.strings id).joined = (objects.strings id').joined →
    (objects.strings id).fragments = (objects.strings id').fragments

theorem Objects.telling_of_unmarked {objects : Objects}
    (h : ∀ id, (objects.strings id).Unmarked) : objects.Telling :=
  fun id id' => TemplateStrings.fragments_eq_of_joined (h id) (h id')

/-- The objects of a host that gives the same fragments out under every identity. -/
def Objects.twins (fragments : List String) : Objects where
  strings id := .ofFragments id fragments
  fragments _ := ⟨{}, ⟨0⟩⟩
  displays _ := ""
  leaves _ := leaves_empty

theorem Objects.telling_twins (fragments : List String) : (twins fragments).Telling := by
  intro id id' _
  cases fragments <;> rfl

/-- A paragraph with a hole, as the fragments of one of the places where it is written. -/
def twin (index : Nat) : TemplateStrings := .ofFragments ⟨index⟩ ["<p>", "</p>"]

end LiveMarkup
