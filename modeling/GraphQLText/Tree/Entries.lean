/-!
# Entries of a map

A map is a list of entries in which each key occurs once, in the order in which the keys came.
Collecting pairs into such a list keeps the first place of a repeated key and its last value.  A
list that repeats no key is collected as it is.
-/

namespace GraphQLText.Entries

variable {K V : Type}

def keys (entries : List (K × V)) : List K :=
  entries.map Prod.fst

def Distinct (entries : List (K × V)) : Prop :=
  (keys entries).Nodup

variable [DecidableEq K]

/-- Gives a key a value: in the place of the key if it is there, and at the end otherwise. -/
def insert (key : K) (value : V) : List (K × V) → List (K × V)
  | [] => [(key, value)]
  | (k, v) :: rest => if k = key then (key, value) :: rest else (k, v) :: insert key value rest

/-- The pairs with each key once, in the place where it came first and with the value that came
last. -/
def collect (pairs : List (K × V)) : List (K × V) :=
  pairs.foldl (fun entries pair => insert pair.1 pair.2 entries) []

theorem keys_insert (key : K) (value : V) (entries : List (K × V)) :
    keys (insert key value entries) =
      if key ∈ keys entries then keys entries else keys entries ++ [key] := by
  induction entries with
  | nil => simp [insert, keys]
  | cons entry rest ih =>
    obtain ⟨k, v⟩ := entry
    by_cases hk : k = key
    · simp [insert, keys, hk]
    · simp only [insert, keys, if_neg hk, List.map_cons, List.mem_cons] at ih ⊢
      rw [ih]
      by_cases hMem : key ∈ rest.map Prod.fst
      · simp [hMem]
      · simp [hMem, Ne.symm hk]

/-- Inserting a new key puts it at the end. -/
theorem insert_of_notMem {key : K} {entries : List (K × V)} (h : key ∉ keys entries) (value : V) :
    insert key value entries = entries ++ [(key, value)] := by
  induction entries with
  | nil => rfl
  | cons entry rest ih =>
    obtain ⟨k, v⟩ := entry
    simp only [keys, List.map_cons, List.mem_cons, not_or] at h
    simp [insert, Ne.symm h.1, ih h.2]

theorem distinct_insert {entries : List (K × V)} (h : Distinct entries) (key : K) (value : V) :
    Distinct (insert key value entries) := by
  unfold Distinct
  rw [keys_insert]
  split
  · exact h
  · rename_i hNew
    refine List.nodup_append.mpr ⟨h, by simp, fun k hk l hl => ?_⟩
    rw [List.mem_singleton.mp hl]
    exact fun hEq => hNew (hEq ▸ hk)

theorem distinct_collect (pairs : List (K × V)) : Distinct (collect pairs) := by
  have aux : ∀ entries : List (K × V), Distinct entries →
      Distinct (pairs.foldl (fun entries pair => insert pair.1 pair.2 entries) entries) := by
    induction pairs with
    | nil => exact fun _ h => h
    | cons pair rest ih => exact fun _ h => ih _ (distinct_insert h _ _)
  exact aux [] (by simp [Distinct, keys])

/-- Entries with distinct keys are collected as they are. -/
theorem collect_of_distinct {entries : List (K × V)} (h : Distinct entries) :
    collect entries = entries := by
  have aux : ∀ before : List (K × V), Distinct (before ++ entries) →
      entries.foldl (fun entries pair => insert pair.1 pair.2 entries) before =
        before ++ entries := by
    clear h
    induction entries with
    | nil => simp
    | cons entry rest ih =>
      intro before hBefore
      have hNew : entry.1 ∉ keys before := by
        intro hMem
        simp only [Distinct, keys, List.map_append, List.map_cons] at hBefore
        exact (List.nodup_append.mp hBefore).2.2 entry.1 hMem entry.1 (by simp) rfl
      rw [List.foldl_cons, insert_of_notMem hNew, ih _ (by simpa using hBefore)]
      simp
  exact aux [] h

end GraphQLText.Entries
