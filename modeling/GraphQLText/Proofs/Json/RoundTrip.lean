import GraphQLText.Proofs.Json.Conversion
import GraphQLText.Proofs.Reading.Number
import GraphQLText.Proofs.Reading.RoundTrip

/-!
# JSON data in a text

A value made from JSON data has no leaves that are checked but the keys of its objects and finite
numbers, and finite numbers have no fault.  So it has a text if and only if every key is a name, and
otherwise the first key that is none is its fault.  The text gives the JSON data back as they were.
-/

namespace GraphQLText.Json

mutual

/-- The keys of the objects in JSON data, each before the keys within its value. -/
def keys : Json → List String
  | .null => []
  | .boolean _ => []
  | .integer _ => []
  | .float _ => []
  | .string _ => []
  | .array items => keysOfItems items
  | .object members => keysOfMembers members
termination_by structural json => json

/-- The keys in the items of an array. -/
def keysOfItems : List Json → List String
  | [] => []
  | item :: rest => keys item ++ keysOfItems rest
termination_by structural items => items

/-- The keys of an object and those in its values. -/
def keysOfMembers : List (String × Json) → List String
  | [] => []
  | (key, member) :: rest => key :: (keys member ++ keysOfMembers rest)
termination_by structural members => members

end

/-! ## The first fault -/

/-- The fault of a key that is not a name. -/
def keyFault? (key : String) : Option Fault :=
  (Leaf.name ⟨key⟩).fault?

theorem Float.isAcceptable (x : Float) : (Leaf.number x.val).fault? = none := by
  simp [Leaf.fault?, x.isFinite]

mutual

/-- The first fault among the leaves of a value made from JSON data is that of a key. -/
theorem findSome?_leaves : ∀ (json : Json) {value : Value}, json.toValue = .ok value →
    value.leaves.findSome? Leaf.fault? = json.keys.findSome? keyFault?
  | .null, _, h => by
    cases h
    rfl
  | .boolean _, _, h => by
    cases h
    rfl
  | .integer n, _, h => by
    obtain ⟨k, rfl, -⟩ := n.toValue_eq_ok h
    rfl
  | .float x, _, h => by
    cases h
    rw [Value.leaves, keys, List.findSome?_cons, x.isAcceptable]
    rfl
  | .string _, _, h => by
    cases h
    rfl
  | .array items, _, h => by
    obtain ⟨values, hvalues, rfl⟩ := exists_of_map_eq_ok h
    rw [Value.leaves, keys]
    exact findSome?_leavesOfItems items hvalues
  | .object members, _, h => by
    obtain ⟨entries, hentries, rfl⟩ := exists_of_map_eq_ok h
    rw [Value.leaves, keys]
    exact findSome?_leavesOfFields members hentries
termination_by structural json => json

theorem findSome?_leavesOfItems : ∀ (items : List Json) {values : List Value},
    toValues items = .ok values →
    (Value.leavesOfItems values).findSome? Leaf.fault? = (keysOfItems items).findSome? keyFault?
  | [], _, h => by
    cases h
    rfl
  | item :: rest, _, h => by
    obtain ⟨first, others, hfirst, hothers, rfl⟩ := toValues_cons_eq_ok h
    rw [Value.leavesOfItems, keysOfItems, List.findSome?_append, List.findSome?_append,
      findSome?_leaves item hfirst, findSome?_leavesOfItems rest hothers]
termination_by structural items => items

theorem findSome?_leavesOfFields : ∀ (members : List (String × Json))
    {entries : List (Name × Value)}, toEntries members = .ok entries →
    (Value.leavesOfFields entries).findSome? Leaf.fault? =
      (keysOfMembers members).findSome? keyFault?
  | [], _, h => by
    cases h
    rfl
  | (key, member) :: rest, _, h => by
    obtain ⟨first, others, hfirst, hothers, rfl⟩ := toEntries_cons_eq_ok h
    rw [Value.leavesOfFields, keysOfMembers, List.findSome?_cons, List.findSome?_cons,
      List.findSome?_append, List.findSome?_append, findSome?_leaves member hfirst,
      findSome?_leavesOfFields rest hothers]
    rfl
termination_by structural members => members

end

/-! ## The data of the literal -/

mutual

/-- The literal of a value made from JSON data stands for these data. -/
theorem json?_literal : ∀ (json : Json) {value : Value}, json.toValue = .ok value →
    value.literal.json? = some json
  | .null, _, h => by
    cases h
    rfl
  | .boolean _, _, h => by
    cases h
    rfl
  | .integer n, _, h => by
    obtain ⟨k, rfl, hk⟩ := n.toValue_eq_ok h
    rw [Value.literal, Literal.json?, hk, Integer.ofInt?, dif_pos ⟨n.least, n.greatest⟩]
    rfl
  | .float x, _, h => by
    cases h
    have hread := Numeral.binary?_ofBinary x.isFinite
    simp [Value.literal, Literal.json?, hread, Float.ofBinary?, x.isFinite]
  | .string _, _, h => by
    cases h
    rfl
  | .array items, _, h => by
    obtain ⟨values, hvalues, rfl⟩ := exists_of_map_eq_ok h
    rw [Value.literal, Literal.json?, jsonItems?_literals items hvalues]
    rfl
  | .object members, _, h => by
    obtain ⟨entries, hentries, rfl⟩ := exists_of_map_eq_ok h
    rw [Value.literal, Literal.json?, jsonMembers?_literalFields members hentries]
    rfl
termination_by structural json => json

theorem jsonItems?_literals : ∀ (items : List Json) {values : List Value},
    toValues items = .ok values → Literal.jsonItems? (Value.literals values) = some items
  | [], _, h => by
    cases h
    rfl
  | item :: rest, _, h => by
    obtain ⟨first, others, hfirst, hothers, rfl⟩ := toValues_cons_eq_ok h
    rw [Value.literals, Literal.jsonItems?, json?_literal item hfirst,
      jsonItems?_literals rest hothers]
    rfl
termination_by structural items => items

theorem jsonMembers?_literalFields : ∀ (members : List (String × Json))
    {entries : List (Name × Value)}, toEntries members = .ok entries →
    Literal.jsonMembers? (Value.literalFields entries) = some members
  | [], _, h => by
    cases h
    rfl
  | (key, member) :: rest, _, h => by
    obtain ⟨first, others, hfirst, hothers, rfl⟩ := toEntries_cons_eq_ok h
    rw [Value.literalFields, Literal.jsonMembers?, json?_literal member hfirst,
      jsonMembers?_literalFields rest hothers]
    rfl
termination_by structural members => members

end

/-! ## The text -/

theorem keyFault?_eq_none_iff {key : String} :
    keyFault? key = none ↔ Token.IsName key.toList := by
  simp [keyFault?, Leaf.fault?]

theorem keyFault?_eq_some_iff {key : String} {fault : Fault} :
    keyFault? key = some fault ↔ ¬ Token.IsName key.toList ∧ fault = .invalidName key := by
  rw [keyFault?, Leaf.fault?]
  dsimp only
  split
  · next hname => simp [hname]
  · next hname => simp [hname, eq_comm]

/-- JSON data that become a value have a text if and only if all keys of their objects are names.
Otherwise the fault is that of the first key that is not a name, where a key comes before the keys
within its value.  The text stands for the same JSON data. -/
theorem print_toValue {json : Json} {value : Value} (h : json.toValue = .ok value) :
    ((∃ text, (Node.value value).print = .ok text) ↔
      ∀ key ∈ json.keys, Token.IsName key.toList) ∧
    (∀ fault, (Node.value value).print = .error fault ↔
      ∃ before key after, json.keys = before ++ key :: after ∧ fault = .invalidName key ∧
        ¬ Token.IsName key.toList ∧ ∀ earlier ∈ before, Token.IsName earlier.toList) ∧
    (∀ text, (Node.value value).print = .ok text → Json.ofText? text = some json) := by
  have hvalue : ¬ (Node.value value).IsEmptyDocument := nofun
  have hfault : (Node.value value).leaves.findSome? Leaf.fault? = json.keys.findSome? keyFault? :=
    findSome?_leaves json h
  refine ⟨?_, ?_, ?_⟩
  · rw [Node.exists_print_eq_ok_iff hvalue, hfault, List.findSome?_eq_none_iff]
    simp only [keyFault?_eq_none_iff]
  · intro fault
    rw [Node.print_eq_error_iff hvalue, hfault, List.findSome?_eq_some_iff]
    simp only [keyFault?_eq_none_iff, keyFault?_eq_some_iff]
    constructor
    · rintro ⟨before, key, after, hkeys, ⟨hinvalid, hname⟩, hbefore⟩
      exact ⟨before, key, after, hkeys, hname, hinvalid, hbefore⟩
    · rintro ⟨before, key, after, hkeys, hname, hinvalid, hbefore⟩
      exact ⟨before, key, after, hkeys, ⟨hinvalid, hname⟩, hbefore⟩
  · intro text hprint
    rw [ofText?, Value.read?_eq_literal_of_print hprint, Option.bind_some, json?_literal json h]

/-- Data with a negative zero, a number without a fraction, the greatest number, a quote and a line
break come back; in other data the first key that is not a name stands within an object, before one
that is empty and one that starts with a digit. -/
theorem print_toValue_nested :
    let json : Json := .object [
      ("floats", .array [.float ⟨⟨0x8000000000000000⟩, rfl⟩, .float ⟨⟨0x4059000000000000⟩, rfl⟩,
        .float ⟨⟨0x7fefffffffffffff⟩, rfl⟩]),
      ("rest", .object [("n", .integer ⟨-3, by decide, by decide⟩), ("s", .string "\"\n")])]
    let value : Value := .map [
      (⟨"floats"⟩, .list [.double ⟨0x8000000000000000⟩, .double ⟨0x4059000000000000⟩,
        .double ⟨0x7fefffffffffffff⟩]),
      (⟨"rest"⟩, .map [(⟨"n"⟩, .int (-3)), (⟨"s"⟩, .string "\"\n")])]
    let text := "\x7bfloats: [-0.0 100.0 1.7976931348623157e308] rest: \x7bn: -3 s: \"\\\"\\n\"\x7d\x7d"
    let unnamed : Json :=
      .object [("ok", .object [("a b", .object [("", .null)])]), ("1", .boolean true)]
    let unwritable : Value :=
      .map [(⟨"ok"⟩, .map [(⟨"a b"⟩, .map [(⟨""⟩, .null)])]), (⟨"1"⟩, .boolean true)]
    json.toValue = .ok value ∧ (Node.value value).print = .ok text ∧
      Json.ofText? text = some json ∧
      unnamed.toValue = .ok unwritable ∧
      (Node.value unwritable).print = .error (.invalidName "a b") := by
  intro json value text unnamed unwritable
  have hvalue : json.toValue = .ok value := rfl
  have hprint : (Node.value value).print = .ok text := by decide +kernel
  have hunwritable : unnamed.toValue = .ok unwritable := rfl
  refine ⟨hvalue, hprint, (print_toValue hvalue).2.2 text hprint, hunwritable, ?_⟩
  rw [(print_toValue hunwritable).2.1]
  exact ⟨["ok"], "a b", ["", "1"], rfl, rfl, by decide, by decide⟩

end GraphQLText.Json
