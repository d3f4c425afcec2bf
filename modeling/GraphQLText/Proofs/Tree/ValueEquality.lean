import GraphQLText.Proofs.Tree.Entries
import GraphQLText.Proofs.Tree.Matching
import GraphQLText.Proofs.Tree.Parts
import Mathlib.Data.List.Nodup

/-!
# Equality of values

Equality of values is symmetric and transitive, but no value that holds a NaN equals itself.  Lists
and objects are equal item by item.  Two maps are equal if their entries match in some order; among
entries with distinct keys, this is a matter of looking up each key of the one in the other.
-/

namespace GraphQLText

namespace Binary

variable {f : BinaryFormat} {x y : Binary f}

theorem isNaN_of_isZero (h : x.isZero = true) : x.isNaN = false := by
  simp only [isZero, Bool.and_eq_true, beq_iff_eq] at h
  simp [isNaN, h.2]

/-- A zero equals the zeros. -/
theorem beq_iff_of_isZero (h : x.isZero = true) : (x == y) = true ↔ y.isZero = true := by
  change beq x y = true ↔ _
  have hx := isNaN_of_isZero h
  constructor
  · intro hxy
    simp only [beq, Bool.and_eq_true, Bool.or_eq_true, beq_iff_eq] at hxy
    rcases hxy.2 with hbits | hzero
    · rwa [← show x = y from congrArg mk hbits]
    · exact hzero.2
  · intro hy
    simp [beq, h, hx, hy, isNaN_of_isZero hy]

/-- Other numbers equal themselves only. -/
theorem beq_iff_of_not_isZero (h : x.isZero = false) :
    (x == y) = true ↔ x.isNaN = false ∧ x = y := by
  change beq x y = true ↔ _
  have hbits : x.bits = y.bits ↔ x = y := by rw [← Binary.mk.injEq]
  simp only [beq, h, Bool.false_and, Bool.or_false, Bool.and_eq_true, Bool.not_eq_true', beq_iff_eq,
    hbits]
  constructor
  · rintro ⟨⟨hx, -⟩, rfl⟩
    exact ⟨hx, rfl⟩
  · rintro ⟨hx, rfl⟩
    exact ⟨⟨hx, hx⟩, rfl⟩

theorem beq_self_iff : (x == x) = true ↔ x.isNaN = false := by
  cases hzero : x.isZero with
  | true => simp [beq_iff_of_isZero hzero, hzero, isNaN_of_isZero hzero]
  | false => simp [beq_iff_of_not_isZero hzero]

theorem regular (x : Binary f) : Regular (fun y z : Binary f => (y == z) = true) x := by
  intro y hxy
  cases hzero : x.isZero with
  | true =>
      have hy := (beq_iff_of_isZero hzero).mp hxy
      exact ⟨(beq_iff_of_isZero hy).mpr hzero, fun z =>
        (beq_iff_of_isZero hzero).trans (beq_iff_of_isZero hy).symm⟩
  | false =>
      obtain ⟨-, rfl⟩ := (beq_iff_of_not_isZero hzero).mp hxy
      exact ⟨hxy, fun z => Iff.rfl⟩

end Binary

namespace Value

/-- Entries with the same key and with equal values. -/
def SameEntry (p q : Name × Value) : Prop :=
  p.1 = q.1 ∧ (p.2 == q.2) = true

/-! ### Equality by the kind of a value -/

theorem beqList_iff {xs ys : List Value} :
    beqList xs ys = true ↔ List.Forall₂ (fun x y => (x == y) = true) xs ys := by
  induction xs generalizing ys with
  | nil => cases ys <;> simp [beqList]
  | cons x xs ih =>
      cases ys with
      | nil => simp [beqList]
      | cons y ys =>
          rw [beqList, Bool.and_eq_true, ih, List.forall₂_cons]
          rfl

theorem beqFields_iff {xs ys : List (Name × Value)} :
    beqFields xs ys = true ↔ List.Forall₂ SameEntry xs ys := by
  induction xs generalizing ys with
  | nil => cases ys <;> simp [beqFields]
  | cons x xs ih =>
      cases ys with
      | nil => simp [beqFields]
      | cons y ys =>
          rw [beqFields, Bool.and_eq_true, Bool.and_eq_true, beq_iff_eq, ih, List.forall₂_cons]
          rfl

theorem perm_of_eraseFirst? {key : Name} {test : Value → Bool} {entries rest : List (Name × Value)}
    (h : eraseFirst? key test entries = some rest) :
    ∃ value, test value = true ∧ entries.Perm ((key, value) :: rest) := by
  induction entries generalizing rest with
  | nil => simp [eraseFirst?] at h
  | cons entry entries ih =>
      obtain ⟨k, v⟩ := entry
      rw [eraseFirst?] at h
      split at h
      · next hfound =>
          simp only [Bool.and_eq_true, decide_eq_true_eq] at hfound
          obtain ⟨rfl, hv⟩ := hfound
          obtain rfl := Option.some.inj h
          exact ⟨v, hv, .refl _⟩
      · obtain ⟨others, hothers, rfl⟩ := Option.map_eq_some_iff.mp h
        obtain ⟨value, hvalue, hperm⟩ := ih hothers
        exact ⟨value, hvalue, (hperm.cons _).trans (.swap _ _ _)⟩

theorem exists_eraseFirst?_eq_some {key : Name} {test : Value → Bool} {value : Value}
    {entries : List (Name × Value)} (hmem : (key, value) ∈ entries) (htest : test value = true) :
    ∃ rest, eraseFirst? key test entries = some rest := by
  induction entries with
  | nil => simp at hmem
  | cons entry entries ih =>
      obtain ⟨k, v⟩ := entry
      rw [eraseFirst?]
      split
      · exact ⟨entries, rfl⟩
      · next hother =>
          have hne : (key, value) ≠ (k, v) := by
            rintro heq
            obtain ⟨rfl, rfl⟩ := Prod.mk.inj heq
            simp [htest] at hother
          obtain ⟨rest, hrest⟩ := ih ((List.mem_cons.mp hmem).resolve_left hne)
          exact ⟨(k, v) :: rest, by rw [hrest, Option.map_some]⟩

/-- Taking out equal entries one after the other finds out whether the entries match, as it does not
matter which of several equal entries is taken out. -/
theorem beqEntries_iff {xs ys : List (Name × Value)} (h : ∀ x ∈ xs, Regular SameEntry x) :
    beqEntries xs ys = true ↔ Matched SameEntry xs ys := by
  induction xs generalizing ys with
  | nil =>
      rw [beqEntries, List.isEmpty_iff]
      constructor
      · rintro rfl
        exact ⟨[], .nil, .nil⟩
      · rintro ⟨_, hzs, hperm⟩
        cases hzs
        exact hperm.nil_eq.symm
  | cons x xs ih =>
      obtain ⟨k, x⟩ := x
      have hxs := (List.forall_mem_cons.mp h).2
      rw [beqEntries]
      constructor
      · intro hbeq
        split at hbeq
        · next rest hrest =>
            obtain ⟨y, hxy, hperm⟩ := perm_of_eraseFirst? hrest
            obtain ⟨zs, hzs, hzs'⟩ := (ih hxs).mp hbeq
            exact ⟨(k, y) :: zs, .cons ⟨rfl, hxy⟩ hzs, (hzs'.cons _).trans hperm.symm⟩
        · cases hbeq
      · intro hmatch
        obtain ⟨_, hzs, hperm⟩ := hmatch
        obtain ⟨⟨l, z⟩, zs, ⟨rfl, hxz⟩, hrest, rfl⟩ := List.forall₂_cons_left_iff.mp hzs
        obtain ⟨rest, (herase : eraseFirst? k (beq x) ys = some rest)⟩ :=
          exists_eraseFirst?_eq_some (hperm.subset List.mem_cons_self) hxz
        obtain ⟨y, hxy, hys⟩ := perm_of_eraseFirst? herase
        have hmatch : Matched SameEntry ((k, x) :: xs) ((k, y) :: rest) :=
          ⟨_, hzs, hperm.trans hys⟩
        simp only [herase]
        exact (ih hxs).mpr (hmatch.of_cons h ⟨rfl, hxy⟩)

theorem single_beq_iff {x : Binary32} {w : Value} :
    (single x == w) = true ↔ ∃ y, w = .single y ∧ (x == y) = true := by
  constructor
  · intro h
    cases w with
    | single y => exact ⟨y, rfl, h⟩
    | _ => cases h
  · rintro ⟨y, rfl, h⟩
    exact h

theorem double_beq_iff {x : Binary64} {w : Value} :
    (double x == w) = true ↔ ∃ y, w = .double y ∧ (x == y) = true := by
  constructor
  · intro h
    cases w with
    | double y => exact ⟨y, rfl, h⟩
    | _ => cases h
  · rintro ⟨y, rfl, h⟩
    exact h

theorem list_beq_iff {xs : List Value} {w : Value} :
    (list xs == w) = true ↔
      ∃ ys, w = .list ys ∧ List.Forall₂ (fun x y => (x == y) = true) xs ys := by
  constructor
  · intro h
    cases w with
    | list ys => exact ⟨ys, rfl, beqList_iff.mp h⟩
    | _ => cases h
  · rintro ⟨ys, rfl, h⟩
    exact beqList_iff.mpr h

theorem object_beq_iff {xs : List (Name × Value)} {w : Value} :
    (object xs == w) = true ↔ ∃ ys, w = .object ys ∧ List.Forall₂ SameEntry xs ys := by
  constructor
  · intro h
    cases w with
    | object ys => exact ⟨ys, rfl, beqFields_iff.mp h⟩
    | _ => cases h
  · rintro ⟨ys, rfl, h⟩
    exact beqFields_iff.mpr h

theorem map_beq_iff_beqEntries {xs : List (Name × Value)} {w : Value} :
    (map xs == w) = true ↔ ∃ ys, w = .map ys ∧ beqEntries xs ys = true := by
  constructor
  · intro h
    cases w with
    | map ys => exact ⟨ys, rfl, h⟩
    | _ => cases h
  · rintro ⟨ys, rfl, h⟩
    exact h

/-- An atom equals itself only. -/
theorem beq_iff_eq_of_isAtom {v w : Value} (h : v.isAtom = true) : (v == w) = true ↔ v = w := by
  change beq _ _ = true ↔ _
  cases v with
  | single | double | list | map | object => cases h
  | _ => cases w <;> simp [beq]

/-! ### Symmetry and transitivity -/

theorem regular_sameEntry {p : Name × Value}
    (h : Regular (fun x y : Value => (x == y) = true) p.2) : Regular SameEntry p :=
  (Regular.eq p.1).prod h

/-- A value that equals another is equalled by it, and the two equal the same values. -/
theorem regular (v : Value) : Regular (fun x y : Value => (x == y) = true) v := by
  induction v using Value.induction with
  | atom v hv =>
      intro w hw
      obtain rfl := (beq_iff_eq_of_isAtom hv).mp hw
      exact ⟨hw, fun _ => Iff.rfl⟩
  | single x => exact x.regular.image single_beq_iff
  | double x => exact x.regular.image double_beq_iff
  | list items ih => exact (Regular.forall₂ ih).image list_beq_iff
  | object fields ih =>
      exact (Regular.forall₂ fun p hp => regular_sameEntry (ih p hp)).image object_beq_iff
  | map entries ih =>
      have hentries : ∀ p ∈ entries, Regular SameEntry p := fun p hp => regular_sameEntry (ih p hp)
      have hbeq : Regular (fun xs ys => beqEntries xs ys = true) entries := by
        intro ys hys
        have hmatch := (beqEntries_iff hentries).mp hys
        have hys := hmatch.regular hentries
        refine ⟨(beqEntries_iff hys).mpr ((Regular.matched hentries).symm hmatch), fun zs => ?_⟩
        exact (beqEntries_iff hentries).trans
          (((Regular.matched hentries).rel_iff hmatch).trans (beqEntries_iff hys).symm)
      exact hbeq.image map_beq_iff_beqEntries

theorem regular_of_mem_entries {entries : List (Name × Value)} :
    ∀ p ∈ entries, Regular SameEntry p :=
  fun p _ => regular_sameEntry p.2.regular

/-- Maps are equal if their entries match. -/
theorem map_beq_iff {xs : List (Name × Value)} {w : Value} :
    (map xs == w) = true ↔ ∃ ys, w = .map ys ∧ Matched SameEntry xs ys := by
  simp only [map_beq_iff_beqEntries, beqEntries_iff regular_of_mem_entries]

/-! ### Reflexivity -/

/-- A value equals itself if and only if none of its parts is a NaN. -/
theorem beq_self_iff (v : Value) : (v == v) = true ↔ ∀ part ∈ v.parts, part.isNaN = false := by
  induction v using Value.induction with
  | atom v hv =>
      obtain ⟨hparts, hnan, -⟩ := parts_of_isAtom hv
      simp [hparts, hnan, beq_iff_eq_of_isAtom hv]
  | single x => simp [single_beq_iff, Binary.beq_self_iff, parts, isNaN]
  | double x => simp [double_beq_iff, Binary.beq_self_iff, parts, isNaN]
  | list items ih =>
      have hself : (list items == list items) = true ↔ ∀ item ∈ items, (item == item) = true := by
        simp [list_beq_iff, List.forall₂_same]
      rw [hself, forall_mem_parts_list]
      exact (forall₂_congr ih).trans (and_iff_right rfl).symm
  | object fields ih =>
      have hself : (object fields == object fields) = true ↔
          ∀ field ∈ fields, (field.2 == field.2) = true := by
        simp only [object_beq_iff, object.injEq, exists_eq_left', List.forall₂_same, SameEntry,
          true_and]
      rw [hself, forall_mem_parts_object]
      exact (forall₂_congr ih).trans (and_iff_right rfl).symm
  | map entries ih =>
      have hself : (map entries == map entries) = true ↔
          ∀ entry ∈ entries, (entry.2 == entry.2) = true := by
        simp only [map_beq_iff, map.injEq, exists_eq_left',
          matched_self_iff regular_of_mem_entries, SameEntry, true_and]
      rw [hself, forall_mem_parts_map]
      exact (forall₂_congr ih).trans (and_iff_right rfl).symm

/-! ### Equal values that differ -/

/-- Equal values are the same, unless there is a zero or a map with several entries in them. -/
theorem eq_of_beq {v w : Value} (hvw : (v == w) = true)
    (h : ∀ part ∈ v.parts, part.isZero = false ∧ part.isReorderable = false) : v = w := by
  induction v using Value.induction generalizing w with
  | atom v hv => exact (beq_iff_eq_of_isAtom hv).mp hvw
  | single x =>
      obtain ⟨y, rfl, hxy⟩ := single_beq_iff.mp hvw
      have hzero : x.isZero = false := (h (.single x) (mem_parts_self _)).1
      rw [((Binary.beq_iff_of_not_isZero hzero).mp hxy).2]
  | double x =>
      obtain ⟨y, rfl, hxy⟩ := double_beq_iff.mp hvw
      have hzero : x.isZero = false := (h (.double x) (mem_parts_self _)).1
      rw [((Binary.beq_iff_of_not_isZero hzero).mp hxy).2]
  | list items ih =>
      obtain ⟨ys, rfl, hys⟩ := list_beq_iff.mp hvw
      have hitems := (forall_mem_parts_list.mp h).2
      rw [eq_of_forall₂ hys fun x hx y hxy => ih x hx hxy (hitems x hx)]
  | object fields ih =>
      obtain ⟨ys, rfl, hys⟩ := object_beq_iff.mp hvw
      have hfields := (forall_mem_parts_object.mp h).2
      rw [eq_of_forall₂ hys fun p hp q hpq => Prod.ext hpq.1 (ih p hp hpq.2 (hfields p hp))]
  | map entries ih =>
      obtain ⟨ys, rfl, hys⟩ := map_beq_iff.mp hvw
      obtain ⟨⟨-, hfew⟩, hentries⟩ := forall_mem_parts_map.mp h
      have hlength : entries.length < 2 := by simpa [isReorderable] using hfew
      rw [eq_of_forall₂ (hys.forall₂_of_length_lt hlength)
        fun p hp q hpq => Prod.ext hpq.1 (ih p hp hpq.2 (hentries p hp))]

/-! ### Maps with distinct keys -/

/-- Partners that are found for each entry on its own can be listed. -/
theorem exists_forall₂_sameEntry {xs ys : List (Name × Value)}
    (h : ∀ p ∈ xs, ∃ q ∈ ys, SameEntry p q) :
    ∃ zs, List.Forall₂ SameEntry xs zs ∧ zs ⊆ ys := by
  induction xs with
  | nil => exact ⟨[], .nil, List.nil_subset ys⟩
  | cons x xs ih =>
      rw [List.forall_mem_cons] at h
      obtain ⟨z, hz, hxz⟩ := h.1
      obtain ⟨zs, hzs, hsubset⟩ := ih h.2
      exact ⟨z :: zs, .cons hxz hzs, List.cons_subset.mpr ⟨hz, hsubset⟩⟩

theorem keys_eq_of_forall₂ {xs ys : List (Name × Value)} (h : List.Forall₂ SameEntry xs ys) :
    Entries.keys xs = Entries.keys ys := by
  rw [Entries.keys, Entries.keys, ← List.forall₂_eq_eq_eq, List.forall₂_map_left_iff,
    List.forall₂_map_right_iff]
  exact h.imp fun _ _ hsame => hsame.1

/-- Entries with distinct keys match others if and only if there are as many of these and each of
the keys is among them with an equal value. -/
theorem matched_iff_of_distinct {xs ys : List (Name × Value)} (h : Entries.Distinct xs) :
    Matched SameEntry xs ys ↔
      xs.length = ys.length ∧ ∀ p ∈ xs, ∃ q ∈ ys, SameEntry p q := by
  constructor
  · intro hmatch
    refine ⟨?_, hmatch.exists_of_mem⟩
    obtain ⟨zs, hzs, hperm⟩ := hmatch
    exact hzs.length_eq.trans hperm.length_eq
  · rintro ⟨hlength, hlookup⟩
    obtain ⟨zs, hzs, hsubset⟩ := exists_forall₂_sameEntry hlookup
    have hkeys : (Entries.keys zs).Nodup := keys_eq_of_forall₂ hzs ▸ h
    have hperm := List.subperm_of_subset (List.Nodup.of_map Prod.fst hkeys) hsubset
    exact ⟨zs, hzs, hperm.perm_of_length_le (Nat.le_of_eq (hlength ▸ hzs.length_eq))⟩

end Value

end GraphQLText
