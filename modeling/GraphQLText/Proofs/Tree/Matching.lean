import Mathlib.Data.List.Forall2
import Mathlib.Data.List.Perm.Basic

/-!
# Regular elements and matched lists

An equality can fail to be reflexive: a number that is no number does not equal itself.  An element
is regular under a relation if all that it is related to is related back to it and has the same
relatives; the relation is then an equivalence on these relatives.  Lists of regular elements are
regular, whether they are compared item by item or as lists that can be put in any order.
-/

namespace GraphQLText

variable {α β : Type} {r : α → α → Prop} {s : β → β → Prop}

/-- All that an element is related to is related back and has the same relatives. -/
def Regular (r : α → α → Prop) (x : α) : Prop :=
  ∀ y, r x y → r y x ∧ ∀ z, r x z ↔ r y z

/-- The items of the one list can be paired with related items of the other, in any order. -/
def Matched (r : α → α → Prop) (xs ys : List α) : Prop :=
  ∃ zs, List.Forall₂ r xs zs ∧ zs.Perm ys

namespace Regular

variable {x y z : α}

theorem symm (h : Regular r x) (hxy : r x y) : r y x :=
  (h y hxy).1

theorem rel_iff (h : Regular r x) (hxy : r x y) : r x z ↔ r y z :=
  (h y hxy).2 z

theorem trans (h : Regular r x) (hxy : r x y) (hyz : r y z) : r x z :=
  (h.rel_iff hxy).mpr hyz

/-- A regular element that is related to anything is related to itself. -/
theorem refl_of_rel (h : Regular r x) (hxy : r x y) : r x x :=
  h.trans hxy (h.symm hxy)

/-- What a regular element is related to is regular as well. -/
theorem of_rel (h : Regular r x) (hxy : r x y) : Regular r y := by
  intro z hyz
  have hxz := h.trans hxy hyz
  exact ⟨(h.rel_iff hxz).mp hxy, fun w => (h.rel_iff hxy).symm.trans (h.rel_iff hxz)⟩

theorem eq (x : α) : Regular Eq x := by
  rintro y rfl
  exact ⟨rfl, fun z => Iff.rfl⟩

theorem prod {y : β} (hx : Regular r x) (hy : Regular s y) :
    Regular (fun p q : α × β => r p.1 q.1 ∧ s p.2 q.2) (x, y) := by
  rintro ⟨x', y'⟩ ⟨hxx', hyy'⟩
  refine ⟨⟨hx.symm hxx', hy.symm hyy'⟩, fun q => ?_⟩
  exact and_congr (hx.rel_iff hxx') (hy.rel_iff hyy')

/-- A constructor keeps regularity if what is built with it is related only to what is built with it
from related arguments. -/
theorem image {c : α → β} (hc : ∀ {x w}, s (c x) w ↔ ∃ y, w = c y ∧ r x y) (h : Regular r x) :
    Regular s (c x) := by
  intro w hw
  obtain ⟨y, rfl, hxy⟩ := hc.mp hw
  refine ⟨hc.mpr ⟨x, rfl, h.symm hxy⟩, fun v => ?_⟩
  rw [hc, hc]
  exact exists_congr fun z => and_congr_right fun _ => h.rel_iff hxy

theorem forall₂ {xs : List α} (h : ∀ x ∈ xs, Regular r x) : Regular (List.Forall₂ r) xs := by
  intro ys hxys
  induction hxys with
  | nil => exact ⟨.nil, fun zs => Iff.rfl⟩
  | @cons x y xs ys hxy _ ih =>
      rw [List.forall_mem_cons] at h
      obtain ⟨hback, hiff⟩ := ih h.2
      refine ⟨.cons (h.1.symm hxy) hback, fun zs => ?_⟩
      cases zs with
      | nil => exact ⟨nofun, nofun⟩
      | cons z zs =>
          rw [List.forall₂_cons, List.forall₂_cons, h.1.rel_iff hxy, hiff zs]

theorem matched {xs : List α} (h : ∀ x ∈ xs, Regular r x) : Regular (Matched r) xs := by
  have hlist := Regular.forall₂ h
  rintro ys ⟨zs, hxzs, hperm⟩
  refine ⟨List.perm_comp_forall₂ hperm.symm (hlist.symm hxzs), fun ws => ⟨?_, ?_⟩⟩
  · rintro ⟨us, hxus, hus⟩
    obtain ⟨vs, hyvs, hvs⟩ :=
      List.perm_comp_forall₂ hperm.symm ((hlist.rel_iff hxzs).mp hxus)
    exact ⟨vs, hyvs, hvs.trans hus⟩
  · rintro ⟨us, hyus, hus⟩
    obtain ⟨vs, hzvs, hvs⟩ := List.perm_comp_forall₂ hperm hyus
    exact ⟨vs, (hlist.rel_iff hxzs).mpr hzvs, hvs.trans hus⟩

end Regular

/-- In a pairing of items, one partner can be replaced by another that is as good. -/
theorem exists_forall₂_perm {xs zs : List α} {y z : α} (h : List.Forall₂ r xs zs) (hy : y ∈ zs)
    (hreplace : ∀ x ∈ xs, r x y → r x z) :
    ∃ us, List.Forall₂ r xs us ∧ (y :: us).Perm (z :: zs) := by
  induction h with
  | nil => simp at hy
  | @cons x v xs zs hxv hrest ih =>
      rw [List.forall_mem_cons] at hreplace
      rcases List.mem_cons.mp hy with rfl | hy
      · exact ⟨z :: zs, .cons (hreplace.1 hxv) hrest, .swap z y zs⟩
      · obtain ⟨us, hus, hperm⟩ := ih hy hreplace.2
        exact ⟨v :: us, .cons hxv hus,
          (List.Perm.swap v y us).trans ((hperm.cons v).trans (.swap z v zs))⟩

/-- If the lists match, then so does what is left of them when two related items are taken out,
whichever these are. -/
theorem Matched.of_cons {xs ys : List α} {x y : α} (h : Matched r (x :: xs) (y :: ys))
    (hregular : ∀ w ∈ x :: xs, Regular r w) (hxy : r x y) : Matched r xs ys := by
  obtain ⟨_, hzs, hperm⟩ := h
  cases hzs with
  | @cons _ z _ zs hxz hrest =>
      rw [List.forall_mem_cons] at hregular
      rcases List.mem_cons.mp (hperm.symm.subset List.mem_cons_self) with rfl | hy
      · exact ⟨zs, hrest, hperm.cons_inv⟩
      · have hyz : r y z := (hregular.1.rel_iff hxy).mp hxz
        obtain ⟨us, hus, hus'⟩ := exists_forall₂_perm hrest hy fun w hw hwy =>
          (hregular.2 w hw).trans hwy hyz
        exact ⟨us, hus, (hus'.trans hperm).cons_inv⟩

theorem Matched.regular {xs ys : List α} (h : Matched r xs ys) (hregular : ∀ x ∈ xs, Regular r x) :
    ∀ y ∈ ys, Regular r y := by
  obtain ⟨zs, hzs, hperm⟩ := h
  suffices hall : ∀ z ∈ zs, Regular r z from fun y hy => hall y (hperm.symm.subset hy)
  clear hperm
  induction hzs with
  | nil => simp
  | cons hxz _ ih =>
      rw [List.forall_mem_cons] at hregular ⊢
      exact ⟨hregular.1.of_rel hxz, ih hregular.2⟩

/-- If items are related to themselves only, then so are lists of them. -/
theorem eq_of_forall₂ {xs ys : List α} (h : List.Forall₂ r xs ys)
    (hitems : ∀ x ∈ xs, ∀ y, r x y → x = y) : xs = ys := by
  have hboth := (List.forall₂_and_left xs ys).mpr ⟨hitems, h⟩
  rw [← List.forall₂_eq_eq_eq]
  exact hboth.imp fun x y h => h.1 y h.2

/-- What holds alike of related items holds of all items of the one list if and only if it does of
all items of the other. -/
theorem forall_mem_iff_of_forall₂ {xs ys : List α} {p : α → Prop} (h : List.Forall₂ r xs ys)
    (hitems : ∀ x ∈ xs, ∀ y, r x y → (p x ↔ p y)) : (∀ x ∈ xs, p x) ↔ ∀ y ∈ ys, p y := by
  induction h with
  | nil => simp
  | cons hxy _ ih =>
      rw [List.forall_mem_cons] at hitems
      rw [List.forall_mem_cons, List.forall_mem_cons, hitems.1 _ hxy, ih hitems.2]

theorem Matched.forall_mem_iff {xs ys : List α} {p : α → Prop} (h : Matched r xs ys)
    (hitems : ∀ x ∈ xs, ∀ y, r x y → (p x ↔ p y)) : (∀ x ∈ xs, p x) ↔ ∀ y ∈ ys, p y := by
  obtain ⟨zs, hzs, hperm⟩ := h
  rw [forall_mem_iff_of_forall₂ hzs hitems]
  exact forall_congr' fun y => imp_congr_left hperm.mem_iff

/-- Each item of a list has a partner in a list that matches it. -/
theorem Matched.exists_of_mem {xs ys : List α} (h : Matched r xs ys) :
    ∀ x ∈ xs, ∃ y ∈ ys, r x y := by
  obtain ⟨zs, hzs, hperm⟩ := h
  suffices hall : ∀ x ∈ xs, ∃ z ∈ zs, r x z by
    intro x hx
    obtain ⟨z, hz, hxz⟩ := hall x hx
    exact ⟨z, hperm.subset hz, hxz⟩
  clear hperm
  induction hzs with
  | nil => simp
  | @cons x z xs zs hxz _ ih =>
      rw [List.forall_mem_cons]
      refine ⟨⟨z, List.mem_cons_self, hxz⟩, fun w hw => ?_⟩
      obtain ⟨v, hv, hwv⟩ := ih w hw
      exact ⟨v, List.mem_cons_of_mem z hv, hwv⟩

/-- A list without two items matches only lists that are related to it item by item. -/
theorem Matched.forall₂_of_length_lt {xs ys : List α} (h : Matched r xs ys)
    (hlength : xs.length < 2) : List.Forall₂ r xs ys := by
  obtain ⟨zs, hzs, hperm⟩ := h
  have hzs' : zs.length < 2 := hzs.length_eq ▸ hlength
  match zs with
  | [] => rwa [hperm.nil_eq] at hzs
  | [z] => rwa [← List.perm_singleton.mp hperm.symm] at hzs
  | _ :: _ :: _ =>
      simp only [List.length_cons] at hzs'
      omega

/-- A list of regular items matches itself if and only if each item is related to itself. -/
theorem matched_self_iff {xs : List α} (hregular : ∀ x ∈ xs, Regular r x) :
    Matched r xs xs ↔ ∀ x ∈ xs, r x x := by
  constructor
  · rintro ⟨zs, hzs, -⟩
    have hboth := (List.forall₂_and_left xs zs).mpr ⟨hregular, hzs⟩
    exact ((List.forall₂_and_left xs zs).mp
      (hboth.imp fun _ _ h => ⟨h.1.refl_of_rel h.2, h.2⟩)).1
  · intro hself
    exact ⟨xs, List.forall₂_same.mpr hself, .refl xs⟩

end GraphQLText
