import GraphQLText.Tree.Value

/-!
# Data as values

What can be used where a value is expected.  Every integer type here fits in 64 signed bits, so
nothing is lost.  A missing datum is the null value.
-/

namespace GraphQLText

/-- Types whose elements stand for values. -/
class ToValue (α : Type) where
  toValue : α → Value

export ToValue (toValue)

instance : ToValue Value := ⟨id⟩
instance : ToValue Int64 := ⟨.int⟩
instance : ToValue Int32 := ⟨fun n => .int n.toInt64⟩
instance : ToValue Int16 := ⟨fun n => .int n.toInt64⟩
instance : ToValue Int8 := ⟨fun n => .int n.toInt64⟩
instance : ToValue UInt32 := ⟨fun n => .int (Int64.ofNat n.toNat)⟩
instance : ToValue UInt16 := ⟨fun n => .int (Int64.ofNat n.toNat)⟩
instance : ToValue UInt8 := ⟨fun n => .int (Int64.ofNat n.toNat)⟩
instance : ToValue Binary32 := ⟨.single⟩
instance : ToValue Binary64 := ⟨.double⟩
instance : ToValue Bool := ⟨.boolean⟩
instance : ToValue String := ⟨.string⟩
instance : ToValue ObjectValue := ⟨ObjectValue.toValue⟩
instance : ToValue Variable := ⟨.variable⟩
instance : ToValue EnumValue := ⟨.enum⟩

instance {α : Type} [ToValue α] : ToValue (List α) := ⟨fun items => .list (items.map toValue)⟩

instance {α : Type} [ToValue α] : ToValue (Option α) :=
  ⟨fun
    | some datum => toValue datum
    | none => .null⟩

end GraphQLText
