import GraphQLText.Tree.Entries
import Mathlib.Data.List.Induction

/-!
# What collecting keeps

Collecting pairs into entries loses the repeats of a key and nothing else.  The keys keep the order
in which they came first, and the value of a key is the one that came last.
-/

namespace GraphQLText.Entries

variable {K V : Type}

/-- The last pair with this key has this value. -/
def IsLast (pairs : List (K × V)) (key : K) (value : V) : Prop :=
  ∃ before after, pairs = before ++ (key, value) :: after ∧ key ∉ keys after

theorem keys_append_singleton (pairs : List (K × V)) (key : K) (value : V) :
    keys (pairs ++ [(key, value)]) = keys pairs ++ [key] := by
  rw [keys, List.map_append]
  rfl

theorem mem_keys_of_mem {entries : List (K × V)} {key : K} {value : V}
    (h : (key, value) ∈ entries) : key ∈ keys entries :=
  List.mem_map.mpr ⟨(key, value), h, rfl⟩

theorem isLast_append_singleton {pairs : List (K × V)} {key k : K} {value v : V} :
    IsLast (pairs ++ [(key, value)]) k v ↔ k = key ∧ v = value ∨ k ≠ key ∧ IsLast pairs k v := by
  constructor
  · rintro ⟨before, after, hpairs, hafter⟩
    -- Either the pair at the end is the one in question, or it comes after it.
    rcases List.eq_nil_or_concat after with rfl | ⟨init, ⟨l, w⟩, rfl⟩
    · obtain ⟨-, hlast⟩ := List.append_inj' hpairs rfl
      rw [List.singleton_inj, Prod.mk.injEq] at hlast
      exact Or.inl ⟨hlast.1.symm, hlast.2.symm⟩
    · rw [List.concat_eq_append, keys_append_singleton, List.mem_append, not_or,
        List.mem_singleton] at hafter
      rw [List.concat_eq_append, ← List.cons_append, ← List.append_assoc] at hpairs
      obtain ⟨hinit, hlast⟩ := List.append_inj' hpairs rfl
      rw [List.singleton_inj, Prod.mk.injEq] at hlast
      exact Or.inr ⟨hlast.1 ▸ hafter.2, before, init, hinit, hafter.1⟩
  · rintro (⟨rfl, rfl⟩ | ⟨hne, before, after, rfl, hafter⟩)
    · exact ⟨pairs, [], rfl, List.not_mem_nil⟩
    · refine ⟨before, after ++ [(key, value)], List.append_assoc _ _ _, ?_⟩
      rw [keys_append_singleton, List.mem_append, not_or, List.mem_singleton]
      exact ⟨hafter, hne⟩

/-- Changing the values changes the last value of each key. -/
theorem isLast_map {W : Type} (g : V → W) {pairs : List (K × V)} {key : K} {w : W} :
    IsLast (pairs.map fun (k, v) => (k, g v)) key w ↔ ∃ v, IsLast pairs key v ∧ w = g v := by
  have hkeys (entries : List (K × V)) :
      keys (entries.map fun (k, v) => (k, g v)) = keys entries := List.map_map
  constructor
  · rintro ⟨before, after, hpairs, hafter⟩
    obtain ⟨init, tail, rfl, -, htail⟩ := List.map_eq_append_iff.mp hpairs
    obtain ⟨⟨k, v⟩, rest, rfl, hpair, rfl⟩ := List.map_eq_cons_iff.mp htail
    obtain ⟨rfl, rfl⟩ := Prod.mk.inj hpair
    exact ⟨v, ⟨init, rest, rfl, hkeys rest ▸ hafter⟩, rfl⟩
  · rintro ⟨v, ⟨before, after, rfl, hafter⟩, rfl⟩
    exact ⟨_, _, List.map_append, (hkeys after).symm ▸ hafter⟩

variable [DecidableEq K]

theorem collect_append_singleton (pairs : List (K × V)) (key : K) (value : V) :
    collect (pairs ++ [(key, value)]) = insert key value (collect pairs) := by
  rw [collect, List.foldl_append]
  rfl

/-- The keys of the collected pairs are those of the pairs, without the later repeats. -/
theorem keys_collect (pairs : List (K × V)) : keys (collect pairs) = (keys pairs).eraseDups := by
  induction pairs using List.reverseRecOn with
  | nil => rfl
  | append_singleton pairs pair ih =>
      obtain ⟨key, value⟩ := pair
      have hsingle : [key].eraseDups = [key] := rfl
      rw [collect_append_singleton, keys_insert, ih, keys_append_singleton, List.eraseDups_append]
      by_cases hkey : key ∈ keys pairs
      · simp [List.removeAll, hkey]
      · simp [List.removeAll, hkey, hsingle]

/-- Among distinct keys, an inserted entry stands in for the one with its key. -/
theorem mem_insert_iff {entries : List (K × V)} (h : Distinct entries) {key k : K} {value v : V} :
    (k, v) ∈ insert key value entries ↔ k = key ∧ v = value ∨ k ≠ key ∧ (k, v) ∈ entries := by
  induction entries with
  | nil => simp [insert]
  | cons entry rest ih =>
      obtain ⟨l, w⟩ := entry
      obtain ⟨hl, hrest⟩ := List.nodup_cons.mp h
      have hne : (k, v) ∈ rest → k ≠ l := by
        rintro hk rfl
        exact hl (mem_keys_of_mem hk)
      rw [insert]
      split
      · next hkey =>
          subst hkey
          by_cases hk : k = l
          · have hnew : (k, v) ∉ rest := fun hmem => hne hmem hk
            simp [hk, hk ▸ hnew]
          · simp [hk]
      · next hkey =>
          rw [List.mem_cons, List.mem_cons, ih hrest, Prod.mk.injEq]
          by_cases hk : k = key
          · have hother : k ≠ l := fun hl => hkey (hl ▸ hk)
            simp [hk, hk ▸ hother]
          · simp [hk]

/-- The collected entries are the last pairs of all keys. -/
theorem mem_collect_iff {pairs : List (K × V)} {k : K} {v : V} :
    (k, v) ∈ collect pairs ↔ IsLast pairs k v := by
  induction pairs using List.reverseRecOn with
  | nil => simp [collect, IsLast]
  | append_singleton pairs pair ih =>
      rw [collect_append_singleton, mem_insert_iff (distinct_collect pairs), ih,
        isLast_append_singleton]

end GraphQLText.Entries
