import GraphQLText.Lexical.Name
import GraphQLText.Lexical.Token

/-!
# The syntax of names

A name is checked on the bytes of its encoding, while the grammar describes its characters.  The
two agree: an ASCII character is encoded by the one byte with its code, and every byte of another
character lies beyond the ASCII codes, where no byte passes a test.
-/

namespace GraphQLText

/-- The characters of a name: a letter or an underscore, and then letters, digits and
underscores. -/
def Token.IsName : List Char → Prop
  | [] => False
  | c :: cs => isNameStart c = true ∧ ∀ d ∈ cs, isNameContinue d = true

namespace Name

open Token

/-- A fact about the codes below 128 is a fact about the ASCII characters. -/
theorem forall_ascii {P : Char → Prop}
    (h : ∀ n, n < 128 → P (Char.ofNat n)) (c : Char) (hc : c.toNat < 128) :
    P c := by
  have hcode := h c.toNat hc
  rwa [Char.ofNat_toNat] at hcode

theorem toNat_lt_of_isNameContinue {c : Char}
    (h : isNameContinue c = true) : c.toNat < 128 := by
  delta isNameContinue Char.isAlphanum Char.isAlpha Char.isUpper Char.isLower Char.isDigit at h
  simp only [Bool.or_eq_true, Bool.and_eq_true, decide_eq_true_eq, beq_iff_eq, ge_iff_le,
    UInt32.le_iff_toNat_le] at h
  have hcode : c.toNat = c.val.toNat := rfl
  have hZ : 'Z'.val.toNat = 90 := rfl
  have hz : 'z'.val.toNat = 122 := rfl
  have h9 : '9'.val.toNat = 57 := rfl
  rcases h with h | rfl
  · omega
  · decide

theorem isNameContinue_of_isNameStart {c : Char}
    (h : isNameStart c = true) : isNameContinue c = true := by
  simp only [isNameStart, isNameContinue, Char.isAlphanum,
    Bool.or_eq_true] at h ⊢
  rcases h with h | h
  · exact Or.inl (Or.inl h)
  · exact Or.inr h

theorem toNat_lt_of_isContinue {b : UInt8}
    (h : isContinue b = true) : b.toNat < 128 := by
  simp only [isContinue, isStart, isLetter, isDigit, Bool.or_eq_true,
    Bool.and_eq_true, decide_eq_true_eq, beq_iff_eq,
    UInt8.le_iff_toNat_le] at h
  have h57 : (57 : UInt8).toNat = 57 := rfl
  have h90 : (90 : UInt8).toNat = 90 := rfl
  have h122 : (122 : UInt8).toNat = 122 := rfl
  rcases h with (h | rfl) | h
  · omega
  · decide
  · omega

theorem utf8EncodeChar_of_lt {c : Char} (hc : c.toNat < 128) :
    String.utf8EncodeChar c = [UInt8.ofNat c.toNat] := by
  have hcode : c.val.toNat ≤ 127 := Nat.le_of_lt_succ hc
  simp only [String.utf8EncodeChar, if_pos hcode]
  rfl

/-- Every byte of a character beyond ASCII is beyond ASCII. -/
theorem le_of_mem_utf8EncodeChar {c : Char} {b : UInt8}
    (hc : 128 ≤ c.toNat) (hb : b ∈ String.utf8EncodeChar c) :
    128 ≤ b.toNat := by
  have hcode : ¬ c.val.toNat ≤ 127 := Nat.not_le_of_lt hc
  simp only [String.utf8EncodeChar, if_neg hcode] at hb
  split at hb
  · simp only [List.mem_cons, List.not_mem_nil, or_false] at hb
    rcases hb with rfl | rfl <;> rw [UInt8.toNat_ofNat'] <;> omega
  · split at hb
    · simp only [List.mem_cons, List.not_mem_nil, or_false] at hb
      rcases hb with rfl | rfl | rfl <;> rw [UInt8.toNat_ofNat'] <;> omega
    · simp only [List.mem_cons, List.not_mem_nil, or_false] at hb
      rcases hb with rfl | rfl | rfl | rfl <;>
        rw [UInt8.toNat_ofNat'] <;> omega

/-- The bytes of a character pass the test when the character does. -/
theorem all_isContinue_utf8EncodeChar (c : Char) :
    (String.utf8EncodeChar c).all isContinue = isNameContinue c := by
  by_cases hc : c.toNat < 128
  · rw [utf8EncodeChar_of_lt hc]
    exact forall_ascii
      (P := fun c => [UInt8.ofNat c.toNat].all isContinue = isNameContinue c)
      (by decide +kernel) c hc
  · have hlong : isNameContinue c = false :=
      Bool.eq_false_iff.mpr fun h => hc (toNat_lt_of_isNameContinue h)
    rw [hlong, Bool.eq_false_iff]
    intro hall
    obtain ⟨b, hb⟩ := List.exists_mem_of_ne_nil _ String.utf8EncodeChar_ne_nil
    have hbyte := toNat_lt_of_isContinue (List.all_eq_true.mp hall b hb)
    have hle := le_of_mem_utf8EncodeChar (Nat.le_of_not_lt hc) hb
    omega

theorem all_isContinue_flatMap (cs : List Char) :
    (cs.flatMap String.utf8EncodeChar).all isContinue =
      cs.all isNameContinue := by
  induction cs with
  | nil => rfl
  | cons c cs ih =>
      rw [List.flatMap_cons, List.all_append, all_isContinue_utf8EncodeChar,
        ih, List.all_cons]

theorem spelled_utf8EncodeChar_append (c : Char) (rest : List UInt8) :
    spelled (String.utf8EncodeChar c ++ rest) =
      (isNameStart c && rest.all isContinue) := by
  by_cases hc : c.toNat < 128
  · rw [utf8EncodeChar_of_lt hc, List.singleton_append, spelled]
    congr 1
    exact forall_ascii
      (P := fun c => isStart (UInt8.ofNat c.toNat) = isNameStart c)
      (by decide +kernel) c hc
  · have hlong : isNameStart c = false :=
      Bool.eq_false_iff.mpr fun h =>
        hc (toNat_lt_of_isNameContinue (isNameContinue_of_isNameStart h))
    rw [hlong, Bool.false_and]
    cases hbytes : String.utf8EncodeChar c with
    | nil => exact absurd hbytes String.utf8EncodeChar_ne_nil
    | cons b bs =>
        have hb : b ∈ String.utf8EncodeChar c := by simp [hbytes]
        have hle := le_of_mem_utf8EncodeChar (Nat.le_of_not_lt hc) hb
        have hstart : isStart b = false := by
          rw [Bool.eq_false_iff]
          intro h
          have hlt := toNat_lt_of_isContinue (b := b) (by simp [isContinue, h])
          omega
        rw [List.cons_append, spelled, hstart, Bool.false_and]

/-- The check on the bytes of a name is a check of its characters. -/
theorem isValid_iff_isName (name : Name) :
    name.isValid = true ↔ IsName name.text.toList := by
  have hbytes : name.text.toByteArray.data.toList =
      name.text.toList.flatMap String.utf8EncodeChar := by
    rw [← String.utf8Encode_toList, List.utf8Encode]
    exact List.toList_data_toByteArray
  rw [isValid, hbytes]
  cases name.text.toList with
  | nil => simp [spelled, IsName]
  | cons c cs =>
      rw [List.flatMap_cons, spelled_utf8EncodeChar_append,
        all_isContinue_flatMap]
      simp [IsName]

end Name

end GraphQLText
