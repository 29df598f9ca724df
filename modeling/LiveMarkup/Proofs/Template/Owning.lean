import LiveMarkup.Proofs.Markup.Written
import LiveMarkup.Proofs.Template.Matching
import LiveMarkup.Proofs.Markup.Letters

set_option autoImplicit false

/-!
When the attributes of an element get the holes that are written in their values. Matching goes by
names without their case, so a marker that is no hole's and an attribute that is not kept can take
part in it. Here is what has to be true of the attributes of a start tag for neither to matter.
-/

namespace LiveMarkup

open Markup (firsts mem_firsts)
open Text (sameName)

theorem Attribute.markers_of_not_isMarked {a : Attribute} (h : a.isMarked = false) :
    a.markers = 0 := by
  have hnone : Text.breakOn marker.toList a.value.toList = none := by
    simpa [isMarked] using h
  rw [markers, segments, Text.splitOn, hnone]
  rfl

namespace AttributeHole

/-- Attributes as they are written in a start tag, each with the holes in its value. -/
abbrev Written := List (Attribute × List AttributeHole)

/-- No attribute in front has the name. -/
def Kept (front : Written) (a : Attribute) : Prop := ∀ y ∈ front, y.1.name ≠ a.name

/-- No attribute that is kept takes its markers for holes of another one. If it has markers, then no
attribute of a like name in front of it that is not kept has holes; and it has as many markers as
holes, or no attribute of a like name has holes from there on. -/
def Unmistaken (written : Written) : Prop :=
  ∀ front x back, written = front ++ x :: back → Kept front x.1 →
    (x.1.isMarked = true → ∀ before y between, front = before ++ y :: between →
      sameName y.1.name x.1.name = true → y.2 ≠ [] → Kept before y.1) ∧
    (x.1.markers = x.2.length ∨ ∀ y ∈ x :: back, sameName y.1.name x.1.name = true → y.2 = [])

/-- Attributes of different names are not mistaken if each has as many markers as holes, or none of
the latter. -/
theorem Unmistaken.of_pairwise {written : Written}
    (hname : written.Pairwise fun x y => sameName x.1.name y.1.name = false)
    (h : ∀ x ∈ written, x.1.markers = x.2.length ∨ x.2 = []) : Unmistaken written := by
  rintro front x back rfl -
  obtain ⟨-, hback, hcross⟩ := List.pairwise_append.1 hname
  have hfirst := (List.pairwise_cons.1 hback).1
  refine ⟨?_, (h x (by simp)).imp_right fun hnil y hy hsame => ?_⟩
  · rintro - before y between rfl hsame
    have := hcross y (by simp) x List.mem_cons_self
    rw [hsame] at this
    cases this
  · rcases List.mem_cons.1 hy with rfl | hy
    · exact hnil
    · have := hfirst y hy
      rw [Text.sameName_symm hsame] at this
      cases this

variable {name : String} {holes front back : List AttributeHole}

theorem takeNamed_of_none (h : ∀ hole ∈ holes, sameName hole.name name = false) (count : Nat) :
    takeNamed name count holes = ([], holes) := by
  fun_induction takeNamed name count holes with
  | case1 => rfl
  | case2 => rfl
  | case3 count hole holes hname taken ih =>
    rw [h hole List.mem_cons_self] at hname
    cases hname
  | case4 count hole holes hname taken ih =>
    simp only [taken, ih fun x hx => h x (List.mem_cons_of_mem _ hx)]

/-- Holes of a name behind others are taken if they are as many as are needed. -/
theorem takeNamed_middle (hfront : ∀ hole ∈ front, sameName hole.name name = false)
    (hholes : ∀ hole ∈ holes, sameName hole.name name = true) (back : List AttributeHole) :
    takeNamed name holes.length (front ++ (holes ++ back)) =
      (holes.map (·.value), front ++ back) := by
  induction front with
  | nil =>
    induction holes with
    | nil => exact takeNamed_zero name back
    | cons hole holes ih =>
      have ih := ih fun x hx => hholes x (List.mem_cons_of_mem _ hx)
      rw [List.nil_append] at ih
      rw [List.nil_append, List.cons_append, List.length_cons, takeNamed,
        if_pos (hholes hole List.mem_cons_self)]
      simp only [ih]
      rfl
  | cons hole front ih =>
    cases holes with
    | nil => exact takeNamed_zero name _
    | cons first holes =>
      rw [List.cons_append, List.length_cons, takeNamed,
        if_neg (by simp [hfront hole List.mem_cons_self])]
      have ih := ih fun x hx => hfront x (List.mem_cons_of_mem _ hx)
      rw [List.length_cons, List.cons_append] at ih
      simp only [List.cons_append, ih]

variable (back) in
/-- An attribute gets the holes in its value, and the others are left. -/
theorem takeNamed_own {x : Attribute × List AttributeHole}
    (hfront : ∀ hole ∈ front, sameName hole.name x.1.name = false)
    (hown : ∀ hole ∈ x.2, sameName hole.name x.1.name = true)
    (h : x.1.markers = x.2.length ∨
      x.2 = [] ∧ ∀ hole ∈ back, sameName hole.name x.1.name = false) :
    let taken := takeNamed x.1.name x.1.markers (front ++ (x.2 ++ back))
    taken.1 = x.2.map (·.value) ∧
      (if taken.1.length = x.1.markers then taken.2 else front ++ (x.2 ++ back)) =
        front ++ back := by
  rcases h with hcount | ⟨hnil, hback⟩
  · rw [hcount, takeNamed_middle hfront hown back]
    simp
  · rw [hnil, List.nil_append, takeNamed_of_none fun hole hm =>
      (List.mem_append.1 hm).elim (hfront hole) (hback hole)]
    simp

/-- Holes of attributes that are not kept. -/
def Spare (done : Written) (left : List AttributeHole) : Prop :=
  ∀ hole ∈ left, ∃ before y between, done = before ++ y :: between ∧ hole ∈ y.2 ∧ ¬ Kept before y.1

section Assigning

variable {written done rest : Written} {left : List AttributeHole}
  {x : Attribute × List AttributeHole}

theorem Spare.kept (h : Spare done left) (x : Attribute × List AttributeHole) :
    Spare (done ++ [x]) left := by
  intro hole hm
  obtain ⟨before, y, between, rfl, hy⟩ := h hole hm
  exact ⟨before, y, between ++ [x], by simp, hy⟩

theorem Spare.dropped (h : Spare done left) (hx : ¬ Kept done x.1) :
    Spare (done ++ [x]) (left ++ x.2) := by
  intro hole hm
  rcases List.mem_append.1 hm with hm | hm
  · exact h.kept x hole hm
  · exact ⟨done, x, [], rfl, hm, hx⟩

/-- Holes that are left are not of a name like that of an attribute that is kept. -/
theorem Spare.not_sameName (h : Spare done left) (hu : Unmistaken written)
    (hname : ∀ x ∈ written, ∀ hole ∈ x.2, sameName hole.name x.1.name = true)
    (hsplit : written = done ++ x :: rest) (hkept : Kept done x.1) (hmarked : x.1.isMarked = true) :
    ∀ hole ∈ left, sameName hole.name x.1.name = false := by
  intro hole hm
  rw [Bool.eq_false_iff]
  intro hsame
  obtain ⟨before, y, between, rfl, hy, hnot⟩ := h hole hm
  have hlike := Text.sameName_trans
    (Text.sameName_symm (hname y (by simp [hsplit]) hole hy)) hsame
  exact hnot ((hu _ x rest hsplit hkept).1 hmarked before y between rfl hlike
    (List.ne_nil_of_mem hy))

/-- The attributes that are kept and hold markers get the holes in their values. -/
theorem assign_firsts (hu : Unmistaken written)
    (hname : ∀ x ∈ written, ∀ hole ∈ x.2, sameName hole.name x.1.name = true) (seen : List String)
    (hsplit : written = done ++ rest) (hseen : ∀ n, n ∈ seen ↔ n ∈ done.map (·.1.name))
    (hleft : Spare done left) :
    let marked := (firsts seen rest).filter fun x => x.1.isMarked
    assign (left ++ rest.flatMap Prod.snd) (marked.map Prod.fst) =
      marked.map fun x => (x.1, x.2.map (·.value)) := by
  induction rest generalizing seen done left with
  | nil => simp [firsts, assign]
  | cons x rest ih =>
    have hnext : written = (done ++ [x]) ++ rest := by simp [hsplit]
    have hkept : Kept done x.1 ↔ x.1.name ∉ seen := by
      rw [hseen, List.mem_map]
      constructor
      · rintro hk ⟨y, hy, he⟩
        exact hk y hy he
      · exact fun hn y hy he => hn ⟨y, hy, he⟩
    rw [firsts, List.flatMap_cons]
    by_cases hx : x.1.name ∈ seen
    · rw [if_pos hx, ← List.append_assoc]
      refine ih seen hnext (fun n => ?_) (hleft.dropped fun hk => hkept.1 hk hx)
      rw [hseen, List.map_append, List.mem_append]
      refine ⟨.inl, fun hn => hn.elim id fun hn => ?_⟩
      obtain rfl := List.mem_singleton.1 hn
      exact (hseen _).1 hx
    · have ih := ih (seen ++ [x.1.name]) hnext (by simp [hseen]) (hleft.kept x)
      have hback := (hu done x rest hsplit (hkept.2 hx)).2
      have hnil : x.1.markers = x.2.length ∨ x.2 = [] :=
        hback.imp_right fun h => h x List.mem_cons_self (Text.sameName_iff.2 rfl)
      rw [if_neg hx]
      by_cases hmarked : x.1.isMarked = true
      · obtain ⟨htaken, hrest⟩ := takeNamed_own (rest.flatMap Prod.snd)
          (hleft.not_sameName hu hname hsplit (hkept.2 hx) hmarked)
          (hname x (by simp [hsplit]))
          (hback.imp_right fun h => ⟨h x List.mem_cons_self (Text.sameName_iff.2 rfl),
            fun hole hm => Bool.eq_false_iff.2 fun hsame => by
              obtain ⟨y, hy, hhole⟩ := List.mem_flatMap.1 hm
              have hlike := Text.sameName_trans
                (Text.sameName_symm (hname y (by simp [hsplit, hy]) hole hhole)) hsame
              exact List.ne_nil_of_mem hhole (h y (List.mem_cons_of_mem _ hy) hlike)⟩)
        simp only [List.filter_cons, hmarked, if_true, List.map_cons, assign]
        rw [hrest, htaken, ih]
      · have hnone : x.2 = [] := by
          rcases hnil with hcount | hnil
          · rw [Attribute.markers_of_not_isMarked (Bool.eq_false_iff.2 hmarked)] at hcount
            exact List.eq_nil_of_length_eq_zero hcount.symm
          · exact hnil
        simp only [List.filter_cons, hmarked, hnone, List.nil_append]
        exact ih

theorem Unmistaken.markers_eq (hu : Unmistaken written) (hx : x ∈ firsts [] written) :
    x.1.markers = x.2.length ∨ x.2 = [] := by
  obtain ⟨front, back, hsplit, -, hfront⟩ := mem_firsts hx
  exact (hu front x back hsplit hfront).2.imp_right fun h =>
    h x List.mem_cons_self (Text.sameName_iff.2 rfl)

/-- An attribute that is kept and in which holes are has as many markers, so they make a part. -/
theorem Unmistaken.exists_part (hu : Unmistaken written) (hx : x ∈ firsts [] written)
    (hne : x.2 ≠ []) (index : Nat) :
    x.1.isMarked = true ∧ ∃ y, partOf index (x.1, x.2.map (·.value)) = some y := by
  have hcount := (hu.markers_eq hx).resolve_right hne
  obtain ⟨hole, holes, hholes⟩ := List.exists_cons_of_ne_nil hne
  constructor
  · by_contra hmarked
    rw [Attribute.markers_of_not_isMarked (Bool.eq_false_iff.2 hmarked)] at hcount
    exact hne (List.eq_nil_of_length_eq_zero hcount.symm)
  · rw [hholes] at hcount ⊢
    rw [List.map_cons, partOf, if_pos (by simp [hcount])]
    exact ⟨_, rfl⟩

variable (hu : Unmistaken written)
  (hname : ∀ x ∈ written, ∀ hole ∈ x.2, sameName hole.name x.1.name = true)

include hu hname

theorem Unmistaken.assign_eq : assign (written.flatMap Prod.snd)
      (((firsts [] written).map Prod.fst).filter Attribute.isMarked) =
    ((firsts [] written).filter fun x => x.1.isMarked).map fun x => (x.1, x.2.map (·.value)) := by
  have hassign := assign_firsts hu hname [] (List.nil_append written).symm (by simp)
    (nofun : Spare [] [])
  rw [List.filter_map]
  exact hassign

theorem Unmistaken.mem_parts {index : Nat} {y : TemplatePart × List Nat} :
    y ∈ (assign (written.flatMap Prod.snd)
        (((firsts [] written).map Prod.fst).filter Attribute.isMarked)).filterMap (partOf index) ↔
      ∃ x ∈ firsts [] written, partOf index (x.1, x.2.map (·.value)) = some y := by
  rw [hu.assign_eq hname, List.mem_filterMap]
  constructor
  · rintro ⟨z, hz, hpart⟩
    obtain ⟨x, hx, rfl⟩ := List.mem_map.1 hz
    exact ⟨x, (List.mem_filter.1 hx).1, hpart⟩
  · rintro ⟨x, hx, hpart⟩
    have hne : x.2 ≠ [] := by
      intro hnil
      rw [hnil] at hpart
      cases hpart
    exact ⟨_, List.mem_map_of_mem (List.mem_filter.2 ⟨hx, (hu.exists_part hx hne index).1⟩), hpart⟩

/-- The attributes that stay are those in which no hole is. -/
theorem Unmistaken.spared_eq :
    spared (written.flatMap Prod.snd) ((firsts [] written).map Prod.fst) =
      ((firsts [] written).filter fun x => x.2.isEmpty).map Prod.fst := by
  have hnodup : ((firsts [] written).map fun x => x.1.name).Nodup := by
    have := Markup.nodup_distinct (written.map Prod.fst)
    rwa [← Markup.map_fst_firsts, List.map_map] at this
  rw [spared, List.filter_map, hu.assign_eq hname]
  congr 1
  refine List.filter_congr fun x hx => Bool.eq_iff_iff.2 ?_
  simp only [Function.comp_apply, List.all_map, List.all_eq_true, List.mem_filter, Bool.or_eq_true,
    bne_iff_ne, List.isEmpty_iff, List.map_eq_nil_iff]
  constructor
  · intro hall
    by_contra hne
    exact (hall x ⟨hx, (hu.exists_part hx hne 0).1⟩).elim (fun h => h rfl) hne
  · rintro hnil y ⟨hy, -⟩
    by_cases hsame : y.1.name = x.1.name
    · exact .inr (List.inj_on_of_nodup_map hnodup hy hx hsame ▸ hnil)
    · exact .inl hsame

end Assigning

end AttributeHole

end LiveMarkup
