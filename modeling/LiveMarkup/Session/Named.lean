set_option autoImplicit false

/-!
Things under names. There is at most one thing of a name: a new one takes the place of the old one.
-/

namespace LiveMarkup

/-- Things with their names, the latest first. -/
structure Named (α : Type) where
  entries : List (String × α) := []
  nodup : (entries.map Prod.fst).Nodup := by simp

namespace Named

variable {α : Type}

def get? (n : Named α) (name : String) : Option α := n.entries.lookup name

def contains (n : Named α) (name : String) : Bool := (n.get? name).isSome

/-- The entries of other names. -/
def others (n : Named α) (name : String) : List (String × α) :=
  n.entries.filter fun e => !(name == e.1)

theorem nodup_others (n : Named α) (name : String) : ((n.others name).map Prod.fst).Nodup :=
  (List.filter_sublist.map Prod.fst).nodup n.nodup

theorem not_mem_others (n : Named α) (name : String) : name ∉ (n.others name).map Prod.fst := by
  intro h
  obtain ⟨e, he, rfl⟩ := List.mem_map.1 h
  simp [others] at he

def erase (n : Named α) (name : String) : Named α := ⟨n.others name, n.nodup_others name⟩

def set (n : Named α) (name : String) (a : α) : Named α :=
  ⟨(name, a) :: n.others name, List.nodup_cons.2 ⟨n.not_mem_others name, n.nodup_others name⟩⟩

def values (n : Named α) : List α := n.entries.map (·.2)

def size (n : Named α) : Nat := n.entries.length

@[simp] theorem get?_set_self (n : Named α) (name : String) (a : α) :
    (n.set name a).get? name = some a := by
  simp [get?, set]

@[simp] theorem get?_erase_self (n : Named α) (name : String) : (n.erase name).get? name = none := by
  simp only [get?, erase, others, List.lookup_eq_none_iff, List.mem_filter]
  intro e he
  simpa using he.2

theorem lookup_others (n : Named α) {name other : String} (h : other ≠ name) :
    (n.others name).lookup other = n.get? other := by
  have hf : (other == name) = false := by simpa using h
  simp only [get?, others]
  induction n.entries with
  | nil => rfl
  | cons e es ih =>
    obtain ⟨key, a⟩ := e
    by_cases hk : name = key
    · subst hk
      simp [List.lookup_cons, hf, ih]
    · simp [List.lookup_cons, hk, ih]

theorem get?_erase_of_ne (n : Named α) {name other : String} (h : other ≠ name) :
    (n.erase name).get? other = n.get? other :=
  n.lookup_others h

theorem get?_set_of_ne (n : Named α) {name other : String} (a : α) (h : other ≠ name) :
    (n.set name a).get? other = n.get? other := by
  have hf : (other == name) = false := by simpa using h
  rw [← n.lookup_others h]
  simp [get?, set, List.lookup_cons, hf]

end Named

end LiveMarkup
