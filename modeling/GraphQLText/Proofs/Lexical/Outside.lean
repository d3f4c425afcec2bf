import GraphQLText.Lexical.StringLiteral

/-!
# Outside of string literals

A text is scanned from left to right for its string literals: a quote opens one, the next quote
closes it, and a backslash inside protects the character after it.  Deleting what stands between the
quotes leaves the structure of the text.  A written literal leaves nothing but its two quotes,
whatever it holds, and the scan has left it at its end.
-/

namespace GraphQLText.StringLiteral

/-- Where a scan stands: outside of literals, inside of one, or right after a backslash in one. -/
inductive Place where
  | outside
  | inside
  | escaped
deriving DecidableEq

namespace Place

/-- The place after one more character. -/
def next : Place → Char → Place
  | outside, c => if c = '"' then inside else outside
  | inside, c => if c = '"' then outside else if c = '\\' then escaped else inside
  | escaped, _ => inside

/-- The place after a text. -/
def after (place : Place) (cs : List Char) : Place :=
  cs.foldl next place

/-- Whether a character is part of the structure: it stands outside of literals, or closes one. -/
def keeps : Place → Char → Bool
  | outside, _ => true
  | inside, c => c = '"'
  | escaped, _ => false

/-- What is left of a text, given the place at its start. -/
def strip (place : Place) : List Char → List Char
  | [] => []
  | c :: cs =>
    if place.keeps c then c :: strip (place.next c) cs else strip (place.next c) cs

@[simp] theorem after_nil (place : Place) : place.after [] = place :=
  rfl

@[simp] theorem after_cons (place : Place) (c : Char) (cs : List Char) :
    place.after (c :: cs) = (place.next c).after cs :=
  rfl

@[simp] theorem after_append (place : Place) (cs ds : List Char) :
    place.after (cs ++ ds) = (place.after cs).after ds :=
  List.foldl_append

theorem strip_append (place : Place) (cs ds : List Char) :
    place.strip (cs ++ ds) = place.strip cs ++ (place.after cs).strip ds := by
  induction cs generalizing place with
  | nil => rfl
  | cons c cs ih =>
      rw [List.cons_append, strip, strip, ih, after_cons]
      split
      · rfl
      · rfl

/-- A text without a quote is all structure. -/
theorem outside_of_quote_notMem {cs : List Char} (h : '"' ∉ cs) :
    outside.after cs = outside ∧ outside.strip cs = cs := by
  induction cs with
  | nil => exact ⟨rfl, rfl⟩
  | cons c cs ih =>
      rw [List.mem_cons, not_or] at h
      obtain ⟨hafter, hstrip⟩ := ih h.2
      have hnext : outside.next c = outside := if_neg (Ne.symm h.1)
      constructor
      · rw [after_cons, hnext, hafter]
      · rw [strip, hnext, hstrip]
        rfl

end Place

open Place

/-- The structure of a text: what is left of it without the contents of its literals. -/
def strip (cs : List Char) : List Char :=
  outside.strip cs

/-- A character that is neither a quote nor a backslash stays inside and is deleted. -/
theorem inside_of_plain {c : Char} (hquote : c ≠ '"') (hslash : c ≠ '\\') :
    inside.next c = inside ∧ inside.keeps c = false := by
  constructor
  · rw [next, if_neg hquote, if_neg hslash]
  · exact decide_eq_false hquote

/-- The escape of a character stays inside of the literal, and none of it is kept. -/
theorem inside_escape (c : Char) :
    inside.after (escape c) = inside ∧ inside.strip (escape c) = [] := by
  unfold escape
  split
  case h_8 hquote hslash _ _ _ _ _ =>
    split
    · -- A hexadecimal digit is neither a quote nor a backslash.
      simp [hexDigits, next, keeps, Place.strip]
    · have hplain := inside_of_plain hquote hslash
      simp [Place.strip, hplain]
  all_goals decide

theorem inside_body (contents : List Char) :
    inside.after (body contents) = inside ∧ inside.strip (body contents) = [] := by
  induction contents with
  | nil => exact ⟨rfl, rfl⟩
  | cons c cs ih =>
      obtain ⟨hafter, hstrip⟩ := inside_escape c
      rw [body] at ih ⊢
      rw [List.flatMap_cons]
      constructor
      · rw [after_append, hafter, ih.1]
      · rw [strip_append, hafter, hstrip, ih.2, List.append_nil]

/-- A literal is scanned to its end, and only its quotes are kept. -/
theorem outside_ofString (s : String) :
    outside.after (ofString s) = outside ∧ outside.strip (ofString s) = ['"', '"'] := by
  obtain ⟨hafter, hstrip⟩ := inside_body s.toList
  constructor
  · rw [ofString, after_cons, after_append]
    simp [next, hafter]
  · rw [ofString, Place.strip, strip_append]
    simp [next, keeps, hafter, hstrip, Place.strip]

end GraphQLText.StringLiteral
