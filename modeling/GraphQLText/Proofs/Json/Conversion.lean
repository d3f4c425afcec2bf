import GraphQLText.Json.OfText
import GraphQLText.Json.ToValue
import GraphQLText.Proofs.Tree.Entries
import Mathlib.Data.List.Nodup

/-!
# JSON data as values, and back

JSON data become a value unless one of their integers is too large, and then the first of these in
reading order is the fault.  Nothing else is lost: the value has the same shape, and the data are
read off it kind by kind.  Members with a repeated key never reach the conversion, as an object is
built by inserting its members one after the other.
-/

namespace GraphQLText

namespace Json

/-! ## Data built from members -/

mutual

/-- The data whose objects are built, at every depth, by inserting the members in order. -/
def collected : Json → Json
  | .null => .null
  | .boolean b => .boolean b
  | .integer n => .integer n
  | .float x => .float x
  | .string contents => .string contents
  | .array items => .array (collectedItems items)
  | .object members => ofMembers (collectedMembers members)
termination_by structural json => json

def collectedItems : List Json → List Json
  | [] => []
  | item :: rest => collected item :: collectedItems rest
termination_by structural items => items

/-- The members of an object with their values built, and with the repeats still among them. -/
def collectedMembers : List (String × Json) → List (String × Json)
  | [] => []
  | (key, member) :: rest => (key, collected member) :: collectedMembers rest
termination_by structural members => members

end

mutual

/-- Every object, at any depth, has each key once. -/
def HasDistinctKeys : Json → Prop
  | .null => True
  | .boolean _ => True
  | .integer _ => True
  | .float _ => True
  | .string _ => True
  | .array items => ItemsHaveDistinctKeys items
  | .object members => Entries.Distinct members ∧ MembersHaveDistinctKeys members
termination_by structural json => json

def ItemsHaveDistinctKeys : List Json → Prop
  | [] => True
  | item :: rest => HasDistinctKeys item ∧ ItemsHaveDistinctKeys rest
termination_by structural items => items

def MembersHaveDistinctKeys : List (String × Json) → Prop
  | [] => True
  | (_, member) :: rest => HasDistinctKeys member ∧ MembersHaveDistinctKeys rest
termination_by structural members => members

end

theorem collectedMembers_eq_map (members : List (String × Json)) :
    collectedMembers members = members.map fun (key, member) => (key, member.collected) := by
  induction members with
  | nil => rfl
  | cons member rest ih =>
      rw [collectedMembers, ih]
      rfl

theorem membersHaveDistinctKeys_iff {members : List (String × Json)} :
    MembersHaveDistinctKeys members ↔
      ∀ key member, (key, member) ∈ members → HasDistinctKeys member := by
  induction members with
  | nil => simp [MembersHaveDistinctKeys]
  | cons first rest ih =>
      obtain ⟨key, member⟩ := first
      rw [MembersHaveDistinctKeys, ih]
      constructor
      · rintro ⟨hmember, hrest⟩ k m hmem
        rcases List.mem_cons.mp hmem with heq | hmem
        · exact (Prod.mk.inj heq).2 ▸ hmember
        · exact hrest k m hmem
      · intro h
        exact ⟨h key member List.mem_cons_self,
          fun k m hmem => h k m (List.mem_cons_of_mem _ hmem)⟩

mutual

theorem hasDistinctKeys_collected : ∀ json : Json, json.collected.HasDistinctKeys
  | .null => trivial
  | .boolean _ => trivial
  | .integer _ => trivial
  | .float _ => trivial
  | .string _ => trivial
  | .array items => itemsHaveDistinctKeys_collected items
  | .object members => by
    have hmembers := membersHaveDistinctKeys_iff.mp (membersHaveDistinctKeys_collected members)
    refine ⟨Entries.distinct_collect _, membersHaveDistinctKeys_iff.mpr ?_⟩
    intro key member hmem
    obtain ⟨before, after, heq, -⟩ := Entries.mem_collect_iff.mp hmem
    exact hmembers key member (heq ▸ List.mem_append_right _ List.mem_cons_self)
termination_by structural json => json

theorem itemsHaveDistinctKeys_collected : ∀ items : List Json,
    ItemsHaveDistinctKeys (collectedItems items)
  | [] => trivial
  | item :: rest => ⟨hasDistinctKeys_collected item, itemsHaveDistinctKeys_collected rest⟩
termination_by structural items => items

theorem membersHaveDistinctKeys_collected : ∀ members : List (String × Json),
    MembersHaveDistinctKeys (collectedMembers members)
  | [] => trivial
  | (_, member) :: rest =>
    ⟨hasDistinctKeys_collected member, membersHaveDistinctKeys_collected rest⟩
termination_by structural members => members

end

mutual

/-- Data that repeat no key are built as they are. -/
theorem collected_of_hasDistinctKeys : ∀ json : Json, json.HasDistinctKeys → json.collected = json
  | .null, _ => rfl
  | .boolean _, _ => rfl
  | .integer _, _ => rfl
  | .float _, _ => rfl
  | .string _, _ => rfl
  | .array items, hkeys => congrArg Json.array (collectedItems_of_haveDistinctKeys items hkeys)
  | .object members, hkeys => by
    rw [collected, collectedMembers_of_haveDistinctKeys members hkeys.2, ofMembers,
      Entries.collect_of_distinct hkeys.1]
termination_by structural json => json

theorem collectedItems_of_haveDistinctKeys : ∀ items : List Json,
    ItemsHaveDistinctKeys items → collectedItems items = items
  | [], _ => rfl
  | item :: rest, hkeys => by
    rw [collectedItems, collected_of_hasDistinctKeys item hkeys.1,
      collectedItems_of_haveDistinctKeys rest hkeys.2]
termination_by structural items => items

theorem collectedMembers_of_haveDistinctKeys : ∀ members : List (String × Json),
    MembersHaveDistinctKeys members → collectedMembers members = members
  | [], _ => rfl
  | (_, member) :: rest, hkeys => by
    rw [collectedMembers, collected_of_hasDistinctKeys member hkeys.1,
      collectedMembers_of_haveDistinctKeys rest hkeys.2]
termination_by structural members => members

end

/-- The data that are built are those with distinct keys, so what holds of the former holds of the
latter. -/
theorem collected_eq_self_iff {json : Json} : json.collected = json ↔ json.HasDistinctKeys := by
  constructor
  · intro h
    rw [← h]
    exact hasDistinctKeys_collected json
  · exact collected_of_hasDistinctKeys json

/-- A built object has each key in the place where it came first, and with the value that came
last. -/
theorem exists_collected_object (members : List (String × Json)) :
    ∃ kept, (Json.object members).collected = .object kept ∧
      Entries.keys kept = (Entries.keys members).eraseDups ∧
      ∀ key json, (key, json) ∈ kept ↔
        ∃ last, Entries.IsLast members key last ∧ json = last.collected := by
  refine ⟨Entries.collect (collectedMembers members), rfl, ?_, ?_⟩
  · have hkeys : Entries.keys (collectedMembers members) = Entries.keys members := by
      rw [collectedMembers_eq_map]
      exact List.map_map
    rw [Entries.keys_collect, hkeys]
  · intro key json
    rw [Entries.mem_collect_iff, collectedMembers_eq_map, Entries.isLast_map]

/-! ## What becomes of JSON data -/

theorem Integer.toValue_eq_ok {n : Integer} {value : Value} (h : n.toValue = .ok value) :
    ∃ k : Int64, value = .int k ∧ k.toInt = n.val := by
  unfold toValue at h
  split at h
  · next hfits =>
      have hleast := n.least
      unfold greatestInt at hfits
      refine ⟨_, (Except.ok.inj h).symm, ?_⟩
      exact Int64.toInt_ofInt_of_le (by omega) (by omega)
  · cases h

theorem exists_of_map_eq_ok {α β : Type} {f : α → β} {result : Except Fault α} {y : β}
    (h : result.map f = .ok y) : ∃ x, result = .ok x ∧ y = f x := by
  cases result with
  | error fault => cases h
  | ok x => exact ⟨x, rfl, (Except.ok.inj h).symm⟩

theorem exists_of_bind_eq_ok {α β : Type} {result : Except Fault α} {next : α → Except Fault β}
    {y : β} (h : (result >>= next) = .ok y) : ∃ x, result = .ok x ∧ next x = .ok y := by
  cases result with
  | error fault => cases h
  | ok x => exact ⟨x, rfl, h⟩

theorem toValues_cons_eq_ok {item : Json} {rest : List Json} {values : List Value}
    (h : toValues (item :: rest) = .ok values) :
    ∃ first others, toValue item = .ok first ∧ toValues rest = .ok others ∧
      values = first :: others := by
  rw [toValues] at h
  obtain ⟨first, hfirst, h⟩ := exists_of_bind_eq_ok h
  obtain ⟨others, hothers, h⟩ := exists_of_bind_eq_ok h
  exact ⟨first, others, hfirst, hothers, (Except.ok.inj h).symm⟩

theorem toEntries_cons_eq_ok {key : String} {member : Json} {rest : List (String × Json)}
    {entries : List (Name × Value)} (h : toEntries ((key, member) :: rest) = .ok entries) :
    ∃ first others, toValue member = .ok first ∧ toEntries rest = .ok others ∧
      entries = (⟨key⟩, first) :: others := by
  rw [toEntries] at h
  obtain ⟨first, hfirst, h⟩ := exists_of_bind_eq_ok h
  obtain ⟨others, hothers, h⟩ := exists_of_bind_eq_ok h
  exact ⟨first, others, hfirst, hothers, (Except.ok.inj h).symm⟩

/-! ## The first integer that is too large -/

mutual

/-- The integers in JSON data, in reading order. -/
def integers : Json → List Integer
  | .null => []
  | .boolean _ => []
  | .integer n => [n]
  | .float _ => []
  | .string _ => []
  | .array items => integersOfItems items
  | .object members => integersOfMembers members
termination_by structural json => json

def integersOfItems : List Json → List Integer
  | [] => []
  | item :: rest => integers item ++ integersOfItems rest
termination_by structural items => items

def integersOfMembers : List (String × Json) → List Integer
  | [] => []
  | (_, member) :: rest => integers member ++ integersOfMembers rest
termination_by structural members => members

end

/-- The fault of an integer that is too large. -/
def Integer.fault? (n : Integer) : Option Fault :=
  if n.val ≤ greatestInt then none else some (.unsupportedNumber (.oversizedInteger n.val.toNat))

theorem Integer.fault?_eq_none_iff {n : Integer} : n.fault? = none ↔ n.val ≤ greatestInt := by
  rw [fault?]
  split
  · next hfits => exact iff_of_true rfl hfits
  · next hlarge => exact iff_of_false nofun hlarge

theorem Integer.fault?_eq_some_iff {n : Integer} {fault : Fault} :
    n.fault? = some fault ↔
      greatestInt < n.val ∧ fault = .unsupportedNumber (.oversizedInteger n.val.toNat) := by
  rw [fault?]
  split
  · next hfits => exact iff_of_false nofun fun h => Int.not_lt.mpr hfits h.1
  · next hlarge => simp [Int.not_le.mp hlarge, eq_comm]

/-- The fault with which a conversion ends, if it ends with one. -/
def faultOf {α : Type} : Except Fault α → Option Fault
  | .ok _ => none
  | .error fault => some fault

section

variable {α β γ : Type}

theorem faultOf_eq_some_iff {result : Except Fault α} {fault : Fault} :
    faultOf result = some fault ↔ result = .error fault := by
  cases result with
  | ok x => exact iff_of_false nofun nofun
  | error first => simp [faultOf]

theorem faultOf_map (f : α → β) (result : Except Fault α) :
    faultOf (result.map f) = faultOf result := by
  cases result with
  | ok x => rfl
  | error fault => rfl

/-- Of two conversions one after the other the first fault counts. -/
theorem faultOf_bind (first : Except Fault α) (second : Except Fault β) (f : α → β → γ) :
    faultOf (do let x ← first; let y ← second; return f x y) =
      (faultOf first).or (faultOf second) := by
  cases first with
  | error fault => rfl
  | ok x =>
      cases second with
      | error fault => rfl
      | ok y => rfl

end

mutual

/-- The fault of a conversion is that of the first integer that is too large. -/
theorem faultOf_toValue : ∀ json : Json,
    faultOf json.toValue = json.integers.findSome? Integer.fault?
  | .null => rfl
  | .boolean _ => rfl
  | .integer n => by
    rw [toValue, Integer.toValue, integers, List.findSome?_singleton, Integer.fault?]
    split
    · rfl
    · rfl
  | .float _ => rfl
  | .string _ => rfl
  | .array items => by rw [toValue, faultOf_map, faultOf_toValues items, integers]
  | .object members => by rw [toValue, faultOf_map, faultOf_toEntries members, integers]
termination_by structural json => json

theorem faultOf_toValues : ∀ items : List Json,
    faultOf (toValues items) = (integersOfItems items).findSome? Integer.fault?
  | [] => rfl
  | item :: rest => by
    rw [toValues, faultOf_bind, faultOf_toValue item, faultOf_toValues rest, integersOfItems,
      List.findSome?_append]
termination_by structural items => items

theorem faultOf_toEntries : ∀ members : List (String × Json),
    faultOf (toEntries members) = (integersOfMembers members).findSome? Integer.fault?
  | [] => rfl
  | (_, member) :: rest => by
    rw [toEntries, faultOf_bind, faultOf_toValue member, faultOf_toEntries rest,
      integersOfMembers, List.findSome?_append]
termination_by structural members => members

end

theorem exists_toValue_eq_error_iff {json : Json} :
    (∃ fault, json.toValue = .error fault) ↔ ∃ n ∈ json.integers, greatestInt < n.val := by
  constructor
  · rintro ⟨fault, h⟩
    rw [← faultOf_eq_some_iff, faultOf_toValue] at h
    obtain ⟨n, hmem, hn⟩ := List.exists_of_findSome?_eq_some h
    exact ⟨n, hmem, (Integer.fault?_eq_some_iff.mp hn).1⟩
  · rintro ⟨n, hmem, hn⟩
    cases hfind : faultOf json.toValue with
    | some fault => exact ⟨fault, faultOf_eq_some_iff.mp hfind⟩
    | none =>
        rw [faultOf_toValue, List.findSome?_eq_none_iff] at hfind
        exact absurd hn (Int.not_lt.mpr (Integer.fault?_eq_none_iff.mp (hfind n hmem)))

/-! ## The way back -/

/-- The JSON integer of an integer with a sign. -/
def Integer.ofInt64 (n : Int64) : Integer where
  val := n.toInt
  least := n.le_toInt
  greatest := by
    have hlt := n.toInt_lt
    omega

/-- The JSON integer of an integer without a sign. -/
def Integer.ofUInt64 (n : UInt64) : Integer where
  val := n.toNat
  least := by omega
  greatest := by
    have hlt := n.toNat_lt
    omega

theorem Integer.toValue_of_val_eq {n : Integer} {k : Int64} (h : n.val = k.toInt) :
    n.toValue = .ok (.int k) := by
  have hlt := k.toInt_lt
  have hfits : n.val ≤ greatestInt := by
    rw [greatestInt]
    omega
  rw [toValue, if_pos hfits, h, Int64.ofInt_toInt]

end Json

namespace Value

mutual

/-- A value without numbers of single width, objects, variables and enum values, in which each map
has each key once. -/
def IsData : Value → Prop
  | .string _ => True
  | .int _ => True
  | .single _ => False
  | .double _ => True
  | .boolean _ => True
  | .null => True
  | .list items => ItemsAreData items
  | .map entries => Entries.Distinct entries ∧ EntriesAreData entries
  | .object _ => False
  | .variable _ => False
  | .enum _ => False
termination_by structural value => value

def ItemsAreData : List Value → Prop
  | [] => True
  | item :: rest => IsData item ∧ ItemsAreData rest
termination_by structural items => items

def EntriesAreData : List (Name × Value) → Prop
  | [] => True
  | (_, value) :: rest => IsData value ∧ EntriesAreData rest
termination_by structural entries => entries

end

mutual

/-- The JSON data of the same shape as a value, if there are any. -/
def json? : Value → Option Json
  | .string contents => some (.string contents)
  | .int n => some (.integer (.ofInt64 n))
  | .single _ => none
  | .double x => (Json.Float.ofBinary? x).map .float
  | .boolean b => some (.boolean b)
  | .null => some .null
  | .list items => (jsonItems? items).map .array
  | .map entries => (jsonMembers? entries).map .object
  | .object _ => none
  | .variable _ => none
  | .enum _ => none
termination_by structural value => value

def jsonItems? : List Value → Option (List Json)
  | [] => some []
  | item :: rest => do
    let json ← json? item
    let others ← jsonItems? rest
    return json :: others
termination_by structural items => items

def jsonMembers? : List (Name × Value) → Option (List (String × Json))
  | [] => some []
  | (name, value) :: rest => do
    let json ← json? value
    let others ← jsonMembers? rest
    return (name.text, json) :: others
termination_by structural entries => entries

end

end Value

namespace Json

mutual

/-- The data are read off the value they became. -/
theorem json?_of_toValue : ∀ (json : Json) {value : Value}, json.toValue = .ok value →
    value.json? = some json
  | .null, _, h => by
    cases h
    rfl
  | .boolean _, _, h => by
    cases h
    rfl
  | .integer n, _, h => by
    obtain ⟨k, rfl, hk⟩ := n.toValue_eq_ok h
    have hn : Integer.ofInt64 k = n := by
      cases n
      exact Integer.mk.injEq .. ▸ hk
    rw [Value.json?, hn]
  | .float x, _, h => by
    cases h
    rw [Value.json?, Float.ofBinary?, dif_pos x.isFinite]
    rfl
  | .string _, _, h => by
    cases h
    rfl
  | .array items, _, h => by
    obtain ⟨values, hvalues, rfl⟩ := exists_of_map_eq_ok h
    rw [Value.json?, jsonItems?_of_toValues items hvalues]
    rfl
  | .object members, _, h => by
    obtain ⟨entries, hentries, rfl⟩ := exists_of_map_eq_ok h
    rw [Value.json?, jsonMembers?_of_toEntries members hentries]
    rfl
termination_by structural json => json

theorem jsonItems?_of_toValues : ∀ (items : List Json) {values : List Value},
    toValues items = .ok values → Value.jsonItems? values = some items
  | [], _, h => by
    cases h
    rfl
  | item :: rest, _, h => by
    obtain ⟨first, others, hfirst, hothers, rfl⟩ := toValues_cons_eq_ok h
    rw [Value.jsonItems?, json?_of_toValue item hfirst, jsonItems?_of_toValues rest hothers]
    rfl
termination_by structural items => items

theorem jsonMembers?_of_toEntries : ∀ (members : List (String × Json))
    {entries : List (Name × Value)}, toEntries members = .ok entries →
    Value.jsonMembers? entries = some members
  | [], _, h => by
    cases h
    rfl
  | (key, member) :: rest, _, h => by
    obtain ⟨first, others, hfirst, hothers, rfl⟩ := toEntries_cons_eq_ok h
    rw [Value.jsonMembers?, json?_of_toValue member hfirst,
      jsonMembers?_of_toEntries rest hothers]
    rfl
termination_by structural members => members

end

theorem keys_of_toEntries {members : List (String × Json)} {entries : List (Name × Value)}
    (h : toEntries members = .ok entries) :
    Entries.keys entries = (Entries.keys members).map Name.mk := by
  induction members generalizing entries with
  | nil =>
      cases h
      rfl
  | cons member rest ih =>
      obtain ⟨key, json⟩ := member
      obtain ⟨first, others, -, hothers, rfl⟩ := toEntries_cons_eq_ok h
      exact congrArg (Name.mk key :: ·) (ih hothers)

/-- Distinct keys stay distinct as names. -/
theorem distinct_of_toEntries {members : List (String × Json)} {entries : List (Name × Value)}
    (hdistinct : Entries.Distinct members) (h : toEntries members = .ok entries) :
    Entries.Distinct entries := by
  rw [Entries.Distinct, keys_of_toEntries h]
  exact List.Nodup.map (fun _ _ heq => congrArg Name.text heq) hdistinct

mutual

theorem isData_of_toValue : ∀ (json : Json) {value : Value}, json.HasDistinctKeys →
    json.toValue = .ok value → value.IsData
  | .null, _, _, h => by
    cases h
    trivial
  | .boolean _, _, _, h => by
    cases h
    trivial
  | .integer n, _, _, h => by
    obtain ⟨k, rfl, -⟩ := n.toValue_eq_ok h
    trivial
  | .float _, _, _, h => by
    cases h
    trivial
  | .string _, _, _, h => by
    cases h
    trivial
  | .array items, _, hkeys, h => by
    obtain ⟨values, hvalues, rfl⟩ := exists_of_map_eq_ok h
    exact itemsAreData_of_toValues items hkeys hvalues
  | .object members, _, hkeys, h => by
    obtain ⟨entries, hentries, rfl⟩ := exists_of_map_eq_ok h
    exact ⟨distinct_of_toEntries hkeys.1 hentries,
      entriesAreData_of_toEntries members hkeys.2 hentries⟩
termination_by structural json => json

theorem itemsAreData_of_toValues : ∀ (items : List Json) {values : List Value},
    ItemsHaveDistinctKeys items → toValues items = .ok values → Value.ItemsAreData values
  | [], _, _, h => by
    cases h
    trivial
  | item :: rest, _, hkeys, h => by
    obtain ⟨first, others, hfirst, hothers, rfl⟩ := toValues_cons_eq_ok h
    exact ⟨isData_of_toValue item hkeys.1 hfirst,
      itemsAreData_of_toValues rest hkeys.2 hothers⟩
termination_by structural items => items

theorem entriesAreData_of_toEntries : ∀ (members : List (String × Json))
    {entries : List (Name × Value)}, MembersHaveDistinctKeys members →
    toEntries members = .ok entries → Value.EntriesAreData entries
  | [], _, _, h => by
    cases h
    trivial
  | (_, member) :: rest, _, hkeys, h => by
    obtain ⟨first, others, hfirst, hothers, rfl⟩ := toEntries_cons_eq_ok h
    exact ⟨isData_of_toValue member hkeys.1 hfirst,
      entriesAreData_of_toEntries rest hkeys.2 hothers⟩
termination_by structural members => members

end

/-- No two data become the same value. -/
theorem eq_of_toValue_eq {json other : Json} {value : Value} (h : json.toValue = .ok value)
    (hother : other.toValue = .ok value) : json = other := by
  have hjson := json?_of_toValue json h
  rw [json?_of_toValue other hother] at hjson
  exact (Option.some.inj hjson).symm

/-- An object keeps each key where it came first and with the value that came last.  The data that
are built so, which are all data with distinct keys, become a value if and only if none of their
integers is too large; otherwise the fault is that of the first one that is.  The value has none of
the kinds that data lack, and the data are read off it, so no two data become the same value.  An
integer with a sign and one without become the same value if they are equal. -/
theorem toValue_collected :
    (∀ members, ∃ kept, (Json.object members).collected = .object kept ∧
      Entries.keys kept = (Entries.keys members).eraseDups ∧
      ∀ key json, (key, json) ∈ kept ↔
        ∃ last, Entries.IsLast members key last ∧ json = last.collected) ∧
    (∀ json : Json, json.collected.HasDistinctKeys ∧
      ((∃ fault, json.collected.toValue = .error fault) ↔
        ∃ n ∈ json.collected.integers, greatestInt < n.val) ∧
      (∀ fault, json.collected.toValue = .error fault ↔
        ∃ before n after, json.collected.integers = before ++ n :: after ∧ greatestInt < n.val ∧
          fault = .unsupportedNumber (.oversizedInteger n.val.toNat) ∧
          ∀ earlier ∈ before, earlier.val ≤ greatestInt) ∧
      ∀ value, json.collected.toValue = .ok value →
        value.IsData ∧ value.json? = some json.collected ∧
        ∀ other : Json, other.collected.toValue = .ok value → other.collected = json.collected) ∧
    (∀ n : Int64, (Json.integer (.ofInt64 n)).toValue = .ok (.int n)) ∧
    ∀ (n : Int64) (m : UInt64), (m.toNat : Int) = n.toInt →
      (Json.integer (.ofUInt64 m)).toValue = .ok (.int n) := by
  refine ⟨exists_collected_object, ?_, ?_, ?_⟩
  · intro json
    have hkeys := hasDistinctKeys_collected json
    have hfault := faultOf_toValue json.collected
    refine ⟨hkeys, exists_toValue_eq_error_iff, ?_, ?_⟩
    · intro fault
      rw [← faultOf_eq_some_iff, hfault, List.findSome?_eq_some_iff]
      simp only [Integer.fault?_eq_none_iff, Integer.fault?_eq_some_iff, and_assoc]
    · intro value h
      exact ⟨isData_of_toValue _ hkeys h, json?_of_toValue _ h,
        fun other hother => eq_of_toValue_eq hother h⟩
  · intro n
    exact Integer.toValue_of_val_eq rfl
  · intro n m h
    exact Integer.toValue_of_val_eq h

/-- The first integer that is too large is lost with its key, and the one left is the fault. -/
example :
    (Json.object [("a", .integer ⟨9223372036854775808, by decide, by decide⟩),
      ("b", .array [.null, .integer ⟨18446744073709551615, by decide, by decide⟩]),
      ("a", .null)]).collected.toValue =
      .error (.unsupportedNumber (.oversizedInteger 18446744073709551615)) :=
  rfl

end Json

end GraphQLText
