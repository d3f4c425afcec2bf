import GraphQLText.Reading.Reader

/-!
# The rules of the reader

For each rule of the grammar, what the reader makes of tokens that are put together by it.  The
reader never goes back, so a rule also says which tokens may follow: an optional part is missing
only if the next token does not begin one.  Enough fuel is more than there are tokens.
-/

namespace GraphQLText.Reader

variable {α β : Type}

/-! ### Steps of a reader -/

/-- A sequence goes on where its first part has ended. -/
theorem bind_apply (r : Reader α) (f : α → Reader β) (ts : List Token) :
    (r >>= f) ts = (r ts).bind fun step => f step.1 step.2 :=
  rfl

theorem pure_apply (x : α) (ts : List Token) : (pure x : Reader α) ts = some (x, ts) :=
  rfl

theorem ite_apply {p : Prop} [Decidable p] (r s : Reader α) (ts : List Token) :
    (if p then r else s) ts = if p then r ts else s ts := by
  split <;> rfl

theorem peek_apply (ts : List Token) : peek ts = some (ts.head?, ts) :=
  rfl

theorem take_cons (t : Token) (ts : List Token) : take (t :: ts) = some (t, ts) :=
  rfl

theorem expect_cons (t : Token) (ts : List Token) : expect t (t :: ts) = some ((), ts) := by
  rw [expect, bind_apply, take_cons, Option.bind_some, ite_apply, if_pos rfl]
  rfl

theorem punctuator_cons (c : Char) (ts : List Token) :
    punctuator c (.punctuator c :: ts) = some ((), ts) :=
  expect_cons _ ts

theorem atPunctuator_apply (c : Char) (ts : List Token) :
    atPunctuator c ts = some (decide (ts.head? = some (.punctuator c)), ts) :=
  rfl

theorem name_cons (text : String) (ts : List Token) :
    name (.name text :: ts) = some (⟨text⟩, ts) :=
  rfl

theorem fragmentName_cons {text : String} (h : text ≠ "on") (ts : List Token) :
    fragmentName (.name text :: ts) = some (⟨⟨text⟩⟩, ts) := by
  have hreserved : (⟨text⟩ : Name) ≠ FragmentName.reserved := by
    intro hname
    exact h (Name.mk.inj hname)
  rw [fragmentName, bind_apply, name_cons, Option.bind_some, ite_apply, if_neg hreserved]
  rfl

/-! ### What a reader takes -/

/-- The tokens do not go on with one of the given punctuators. -/
def NotAt (stops : List Char) (rest : List Token) : Prop :=
  ∀ c ∈ stops, rest.head? ≠ some (.punctuator c)

/-- There are tokens, and they do not begin with one of the given punctuators. -/
def Starts (stops : List Char) (ts : List Token) : Prop :=
  ∃ t rest, ts = t :: rest ∧ ∀ c ∈ stops, t ≠ .punctuator c

/-- If there are tokens, they begin with the given punctuator. -/
def Opens (c : Char) (ts : List Token) : Prop :=
  ∀ t ∈ ts.head?, t = .punctuator c

/-- With more fuel than there are tokens, the reader takes the tokens as `x`, whatever goes on after
them without being one of the stops. -/
def Takes (r : Nat → Reader α) (stops : List Char) (ts : List Token) (x : α) : Prop :=
  ∀ fuel rest, ts.length < fuel → NotAt stops rest → r fuel (ts ++ rest) = some (x, rest)

/-- The reader takes the tokens of an optional part, which begins with a punctuator of its own. -/
structure TakesPart (r : Nat → Reader α) (c : Char) (stops : List Char) (ts : List Token) (x : α) :
    Prop where
  takes : Takes r stops ts x
  opens : Opens c ts

/-- The reader takes the tokens as one item after the other.  No item begins with a stop or with the
closing punctuator. -/
inductive Items (item : Nat → Reader α) (stops : List Char) (closing : Char) :
    List Token → List α → Prop
  | nil : Items item stops closing [] []
  | cons {ts us : List Token} {x : α} {xs : List α} :
      Takes item stops ts x → Starts (closing :: stops) ts → Items item stops closing us xs →
        Items item stops closing (ts ++ us) (x :: xs)

theorem notAt_nil (rest : List Token) : NotAt [] rest :=
  fun _ hc => absurd hc List.not_mem_nil

theorem notAt_punctuator {stops : List Char} {c : Char} (h : c ∉ stops) (rest : List Token) :
    NotAt stops (.punctuator c :: rest) := by
  intro d hd hhead
  rw [List.head?_cons, Option.some.injEq, Token.punctuator.injEq] at hhead
  exact h (hhead ▸ hd)

theorem NotAt.mono {stops stops' : List Char} {rest : List Token} (h : NotAt stops rest)
    (hsub : stops' ⊆ stops) : NotAt stops' rest :=
  fun c hc => h c (hsub hc)

theorem NotAt.head?_ne {stops : List Char} {rest : List Token} (h : NotAt stops rest) {c : Char}
    (hc : c ∈ stops) : rest.head? ≠ some (.punctuator c) :=
  h c hc

theorem opens_nil (c : Char) : Opens c [] := by
  rintro t ⟨⟩

theorem opens_punctuator (c : Char) (rest : List Token) :
    Opens c (.punctuator c :: rest) := by
  rintro t ⟨⟩
  rfl

/-- An optional part may stand where its own punctuator does not stop. -/
theorem Opens.notAt {c : Char} {ts rest : List Token} (h : Opens c ts) {stops : List Char}
    (hc : c ∉ stops) (hrest : NotAt stops rest) : NotAt stops (ts ++ rest) := by
  cases ts with
  | nil => exact hrest
  | cons t ts =>
      have ht : t = .punctuator c := h t rfl
      rw [ht]
      exact notAt_punctuator hc _

theorem Starts.notAt {stops stops' : List Char} {ts : List Token} (h : Starts stops ts)
    (hsub : stops' ⊆ stops) (rest : List Token) : NotAt stops' (ts ++ rest) := by
  obtain ⟨t, us, rfl, ht⟩ := h
  intro c hc hhead
  exact ht c (hsub hc) (Option.some.inj hhead)

theorem Starts.append {stops : List Char} {ts : List Token} (h : Starts stops ts)
    (rest : List Token) : Starts stops (ts ++ rest) := by
  obtain ⟨t, us, rfl, ht⟩ := h
  exact ⟨t, us ++ rest, rfl, ht⟩

theorem starts_name (text : String) (rest : List Token) (stops : List Char) :
    Starts stops (.name text :: rest) :=
  ⟨_, _, rfl, fun _ _ h => Token.noConfusion h⟩

theorem starts_punctuator {c : Char} {stops : List Char} (h : c ∉ stops) (rest : List Token) :
    Starts stops (.punctuator c :: rest) :=
  ⟨_, _, rfl, fun _ hd heq => h (Token.punctuator.inj heq ▸ hd)⟩

/-- There is fuel for the first token. -/
theorem exists_fuel {n fuel : Nat} (h : n < fuel) : ∃ fuel', fuel = fuel' + 1 ∧ n ≤ fuel' :=
  ⟨fuel - 1, by omega, by omega⟩

/-! ### Items -/

/-- Items up to the closing punctuator may go on after an item. -/
theorem Items.notAt {item : Nat → Reader α} {stops : List Char} {closing : Char}
    {ts : List Token} {xs : List α} (h : Items item stops closing ts xs) (hclosing : closing ∉ stops)
    (rest : List Token) : NotAt stops (ts ++ .punctuator closing :: rest) := by
  cases h with
  | nil => exact notAt_punctuator hclosing rest
  | cons _ hstart _ =>
      rw [List.append_assoc]
      exact hstart.notAt (List.subset_cons_self closing stops) _

theorem itemsUntil_of_items {item : Nat → Reader α} {stops : List Char} {closing : Char}
    {ts : List Token} {xs : List α} (h : Items item stops closing ts xs) (hclosing : closing ∉ stops)
    {fuel : Nat} (hfuel : ts.length < fuel) (rest : List Token) {n : Nat} (hn : ts.length < n) :
    itemsUntil closing (item fuel) n (ts ++ .punctuator closing :: rest) = some (xs, rest) := by
  induction h generalizing n with
  | nil =>
      obtain ⟨n, rfl, -⟩ := exists_fuel hn
      rw [itemsUntil, bind_apply, atPunctuator_apply, Option.bind_some]
      simp only [List.nil_append, List.head?_cons, decide_true, if_true]
      rw [bind_apply, punctuator_cons]
      rfl
  | @cons ts us x xs hitem hstart hitems ih =>
      obtain ⟨t, ts', rfl, ht⟩ := hstart
      obtain ⟨n, rfl, hn'⟩ := exists_fuel hn
      have hne : t ≠ .punctuator closing := ht closing (List.mem_cons_self ..)
      simp only [List.length_append, List.length_cons] at hfuel hn'
      have hfirst := hitem fuel _ (by simp only [List.length_cons]; omega)
        (hitems.notAt hclosing rest)
      have hrest : itemsUntil closing (item fuel) n (us ++ .punctuator closing :: rest) =
          some (xs, rest) := ih (by omega) (by omega)
      rw [List.append_assoc, itemsUntil, bind_apply, atPunctuator_apply, Option.bind_some]
      simp only [List.cons_append, List.head?_cons, Option.some.injEq, hne, decide_false,
        Bool.false_eq_true, if_false]
      rw [bind_apply, ← List.cons_append, hfirst, Option.bind_some, bind_apply, hrest]
      rfl

section Between

variable {item : Nat → Reader α} {stops : List Char} {opening closing : Char}
  {ts : List Token} {xs : List α}

theorem takes_between (h : Items item stops closing ts xs) (hclosing : closing ∉ stops) :
    Takes (fun fuel => between opening closing (item fuel) fuel) []
      (.punctuator opening :: (ts ++ [.punctuator closing])) xs := by
  intro fuel rest hfuel _
  have hlength : ts.length < fuel := by
    simp only [List.length_cons, List.length_append] at hfuel
    omega
  simp only [between, List.cons_append, List.append_assoc, bind_apply, punctuator_cons]
  exact itemsUntil_of_items h hclosing hlength rest hlength

/-- Nothing in place of items between parentheses. -/
theorem takesPart_parenthesized?_nil :
    TakesPart (fun fuel => parenthesized? (item fuel) fuel) '(' ['('] [] [] := by
  constructor
  · intro fuel rest _ hrest
    have hhead := hrest.head?_ne (List.mem_cons_self ..)
    simp only [parenthesized?, List.nil_append, bind_apply, atPunctuator_apply, Option.bind_some,
      hhead, decide_false, Bool.false_eq_true, if_false]
    rfl
  · exact opens_nil _

/-- At least one item between parentheses. -/
theorem takesPart_parenthesized? (h : Items item stops ')' ts xs) (hclosing : ')' ∉ stops)
    (hne : xs ≠ []) :
    TakesPart (fun fuel => parenthesized? (item fuel) fuel) '(' ['(']
      (.punctuator '(' :: (ts ++ [.punctuator ')'])) xs := by
  constructor
  · intro fuel rest hfuel _
    have hbetween : between '(' ')' (item fuel) fuel
        (.punctuator '(' :: (ts ++ [.punctuator ')'] ++ rest)) = some (xs, rest) :=
      takes_between h hclosing fuel rest hfuel (notAt_nil rest)
    have hempty : xs.isEmpty = false := by simpa using hne
    simp only [parenthesized?, bind_apply, atPunctuator_apply, Option.bind_some, List.cons_append,
      List.head?_cons, decide_true, if_true, hbetween, hempty, Bool.false_eq_true, if_false]
    rfl
  · exact opens_punctuator _ _

end Between

theorem takes_named {item : Nat → Reader α} {stops : List Char} {ts : List Token} {x : α}
    (h : Takes item stops ts x) (key : String) :
    Takes (fun fuel => named (item fuel)) stops (.name key :: .punctuator ':' :: ts)
      (⟨key⟩, x) := by
  intro fuel rest hfuel hrest
  have hitem := h fuel rest (by simp only [List.length_cons] at hfuel; omega) hrest
  simp only [named, List.cons_append, bind_apply, name_cons, Option.bind_some, punctuator_cons,
    hitem, pure_apply]

/-! ### Values -/

section Values

variable {ts : List Token}

theorem takes_value_string (contents : String) :
    Takes value [] [.string contents] (.string contents) := by
  intro fuel rest hfuel _
  obtain ⟨fuel, rfl, -⟩ := exists_fuel hfuel
  rfl

theorem takes_value_blockString (text : String) :
    Takes value [] [.blockString text] (.blockString text) := by
  intro fuel rest hfuel _
  obtain ⟨fuel, rfl, -⟩ := exists_fuel hfuel
  rfl

theorem takes_value_int (text : String) :
    Takes value [] [.int text] (.int (Numeral.integer text.toList)) := by
  intro fuel rest hfuel _
  obtain ⟨fuel, rfl, -⟩ := exists_fuel hfuel
  rfl

theorem takes_value_float (text : String) : Takes value [] [.float text] (.float text) := by
  intro fuel rest hfuel _
  obtain ⟨fuel, rfl, -⟩ := exists_fuel hfuel
  rfl

theorem takes_value_word (text : String) :
    Takes value [] [.name text] (Literal.ofWord text) := by
  intro fuel rest hfuel _
  obtain ⟨fuel, rfl, -⟩ := exists_fuel hfuel
  rfl

theorem takes_value_variable (text : String) :
    Takes value [] [.punctuator '$', .name text] (.variable ⟨⟨text⟩⟩) := by
  intro fuel rest hfuel _
  obtain ⟨fuel, rfl, -⟩ := exists_fuel hfuel
  rfl

theorem takes_value_list {items : List Literal} (h : Items value [] ']' ts items) :
    Takes value [] (.punctuator '[' :: (ts ++ [.punctuator ']'])) (.list items) := by
  intro fuel rest hfuel _
  obtain ⟨fuel, rfl, hfuel⟩ := exists_fuel hfuel
  have hlength : ts.length < fuel := by
    simp only [List.length_append, List.length_cons, List.length_nil] at hfuel
    omega
  have hitems := itemsUntil_of_items h List.not_mem_nil hlength rest hlength
  simp only [value, List.cons_append, List.append_assoc, List.nil_append, bind_apply, take_cons,
    Option.bind_some, hitems]
  rfl

theorem takes_value_object {fields : List (Name × Literal)}
    (h : Items (fun fuel => named (value fuel)) [] '\x7d' ts fields) :
    Takes value [] (.punctuator '\x7b' :: (ts ++ [.punctuator '\x7d'])) (.object fields) := by
  intro fuel rest hfuel _
  obtain ⟨fuel, rfl, hfuel⟩ := exists_fuel hfuel
  have hlength : ts.length < fuel := by
    simp only [List.length_append, List.length_cons, List.length_nil] at hfuel
    omega
  have hfields := itemsUntil_of_items h List.not_mem_nil hlength rest hlength
  simp only [value, List.cons_append, List.append_assoc, List.nil_append, bind_apply, take_cons,
    Option.bind_some, hfields]
  rfl

end Values

/-! ### Arguments and directives -/

theorem takesPart_arguments {ts : List Token} {pairs : List (Name × Literal)}
    (h : TakesPart (fun fuel => parenthesized? (named (value fuel)) fuel) '(' ['('] ts pairs) :
    TakesPart arguments '(' ['('] ts (Arguments.ofPairs pairs) := by
  constructor
  · intro fuel rest hfuel hrest
    have hpairs : parenthesized? (named (value fuel)) fuel (ts ++ rest) = some (pairs, rest) :=
      h.takes fuel rest hfuel hrest
    rw [arguments, bind_apply, hpairs]
    rfl
  · exact h.opens

theorem takesPart_directives_nil : TakesPart directives '@' ['@', '('] [] [] := by
  constructor
  · intro fuel rest hfuel hrest
    obtain ⟨fuel, rfl, -⟩ := exists_fuel hfuel
    have hhead : rest.head? ≠ some (.punctuator '@') := hrest.head?_ne (by simp)
    simp only [directives, List.nil_append, bind_apply, atPunctuator_apply, Option.bind_some,
      hhead, decide_false, Bool.false_eq_true, if_false]
    rfl
  · exact opens_nil _

theorem takesPart_directives_cons (text : String) {ts us : List Token}
    {given : Arguments Literal} {others : List (Directive Literal)}
    (h : TakesPart arguments '(' ['('] ts given)
    (hothers : TakesPart directives '@' ['@', '('] us others) :
    TakesPart directives '@' ['@', '('] (.punctuator '@' :: .name text :: (ts ++ us))
      (⟨⟨text⟩, given⟩ :: others) := by
  constructor
  · intro fuel rest hfuel hrest
    obtain ⟨fuel, rfl, hlength⟩ := exists_fuel hfuel
    simp only [List.length_cons, List.length_append] at hlength
    have hnext : NotAt ['('] (us ++ rest) :=
      hothers.opens.notAt (by simp) (hrest.mono (by simp))
    have hgiven := h.takes fuel (us ++ rest) (by omega) hnext
    have hrest := hothers.takes fuel rest (by omega) hrest
    simp only [directives, List.cons_append, List.append_assoc, bind_apply, atPunctuator_apply,
      Option.bind_some, List.head?_cons, decide_true, if_true, punctuator_cons, name_cons,
      hgiven, hrest, pure_apply]
  · exact opens_punctuator _ _

/-! ### Selections -/

/-- The stops of a selection: each of them could go on a field or a spread. -/
def selectionStops : List Char :=
  [':', '(', '@', '\x7b']

section Selections

variable {item : Nat → Reader (Selection Literal)}

theorem takes_selectionSet {ts : List Token} {selections : List (Selection Literal)}
    (h : Items item selectionStops '\x7d' ts selections) :
    Takes (fun fuel => selectionSet (item fuel) fuel) []
      (.punctuator '\x7b' :: (ts ++ [.punctuator '\x7d'])) ⟨selections⟩ := by
  intro fuel rest hfuel hrest
  have hitems : between '\x7b' '\x7d' (item fuel) fuel
      (.punctuator '\x7b' :: (ts ++ [.punctuator '\x7d']) ++ rest) = some (selections, rest) :=
    takes_between h (by decide) fuel rest hfuel hrest
  simp only [selectionSet, bind_apply, hitems, Option.bind_some]
  rfl

theorem takesPart_selectionSet?_nil :
    TakesPart (fun fuel => selectionSet? (item fuel) fuel) '\x7b' ['\x7b'] [] ⟨[]⟩ := by
  constructor
  · intro fuel rest _ hrest
    have hhead := hrest.head?_ne (List.mem_cons_self ..)
    simp only [selectionSet?, List.nil_append, bind_apply, atPunctuator_apply, Option.bind_some,
      hhead, decide_false, Bool.false_eq_true, if_false]
    rfl
  · exact opens_nil _

theorem takesPart_selectionSet? {ts : List Token} {selections : List (Selection Literal)}
    (h : Items item selectionStops '\x7d' ts selections) :
    TakesPart (fun fuel => selectionSet? (item fuel) fuel) '\x7b' ['\x7b']
      (.punctuator '\x7b' :: (ts ++ [.punctuator '\x7d'])) ⟨selections⟩ := by
  constructor
  · intro fuel rest hfuel _
    have hset := takes_selectionSet h fuel rest hfuel (notAt_nil rest)
    simp only [selectionSet?, bind_apply, atPunctuator_apply, Option.bind_some, List.cons_append,
      List.head?_cons, decide_true, if_true]
    exact hset
  · exact opens_punctuator _ _

end Selections

/-- The tokens of a name, with an alias before it or without one. -/
def fieldNameTokens (aliasName : Option Name) (name : Name) : List Token :=
  match aliasName with
  | some given => [.name given.text, .punctuator ':', .name name.text]
  | none => [.name name.text]

theorem fieldName_append (aliasName : Option Name) (name : Name) {rest : List Token}
    (hrest : NotAt [':'] rest) :
    fieldName (fieldNameTokens aliasName name ++ rest) = some ((aliasName, name), rest) := by
  cases aliasName with
  | some given => rfl
  | none =>
      have hhead : rest.head? ≠ some (.punctuator ':') := hrest.head?_ne (by simp)
      simp only [fieldName, fieldNameTokens, List.cons_append, List.nil_append, bind_apply,
        name_cons, Option.bind_some, atPunctuator_apply, hhead, decide_false, Bool.false_eq_true,
        if_false]
      rfl

theorem exists_fieldNameTokens (aliasName : Option Name) (name : Name) :
    ∃ text us, fieldNameTokens aliasName name = .name text :: us := by
  cases aliasName with
  | some given => exact ⟨_, _, rfl⟩
  | none => exact ⟨_, _, rfl⟩

/-- A field: its name, its arguments, its directives and its selections. -/
theorem takes_selection_field (aliasName : Option Name) (name : Name)
    {as ds ss : List Token} {given : Arguments Literal}
    {dirs : List (Directive Literal)} {set : SelectionSet Literal}
    (harguments : TakesPart arguments '(' ['('] as given)
    (hdirectives : TakesPart directives '@' ['@', '('] ds dirs)
    (hset : TakesPart (fun fuel => selectionSet? (selection fuel) fuel) '\x7b' ['\x7b'] ss set) :
    Takes selection selectionStops (fieldNameTokens aliasName name ++ (as ++ (ds ++ ss)))
      (.field ⟨aliasName, name, given, dirs, set⟩) := by
  intro fuel rest hfuel hrest
  obtain ⟨fuel, rfl, hlength⟩ := exists_fuel hfuel
  obtain ⟨text, us, hname⟩ := exists_fieldNameTokens aliasName name
  simp only [List.length_append, hname, List.length_cons] at hlength
  have hafterSet : NotAt ['\x7b'] rest := hrest.mono (by decide)
  have hafterDirectives : NotAt ['@', '('] (ss ++ rest) :=
    hset.opens.notAt (by decide) (hrest.mono (by decide))
  have hafterArguments : NotAt ['('] (ds ++ (ss ++ rest)) :=
    hdirectives.opens.notAt (by decide) (hafterDirectives.mono (by decide))
  have hafterName : NotAt [':'] (as ++ (ds ++ (ss ++ rest))) :=
    harguments.opens.notAt (by decide) (hdirectives.opens.notAt (by decide)
      (hset.opens.notAt (by decide) (hrest.mono (by decide))))
  have hfield := fieldName_append aliasName name hafterName
  have hgiven := harguments.takes fuel (ds ++ (ss ++ rest)) (by omega) hafterArguments
  have hdirs := hdirectives.takes fuel (ss ++ rest) (by omega) hafterDirectives
  have hselections : selectionSet? (selection fuel) fuel (ss ++ rest) = some (set, rest) :=
    hset.takes fuel rest (by omega) hafterSet
  have hspread : (fieldNameTokens aliasName name ++ (as ++ (ds ++ (ss ++ rest)))).head? ≠
      some .spread := by
    rw [hname]
    simp
  simp only [selection, List.append_assoc, bind_apply, peek_apply, Option.bind_some, hspread,
    if_false, hfield, hgiven, hdirs, hselections, pure_apply]

/-- A spread: three dots, a name other than `on` and directives. -/
theorem takes_selection_spread {text : String} (hname : text ≠ "on") {ds : List Token}
    {dirs : List (Directive Literal)} (hdirectives : TakesPart directives '@' ['@', '('] ds dirs) :
    Takes selection selectionStops (.spread :: .name text :: ds) (.spread ⟨⟨⟨text⟩⟩, dirs⟩) := by
  intro fuel rest hfuel hrest
  obtain ⟨fuel, rfl, hlength⟩ := exists_fuel hfuel
  simp only [List.length_cons] at hlength
  have hdirs := hdirectives.takes fuel rest (by omega) (hrest.mono (by decide))
  simp only [selection, List.cons_append, bind_apply, peek_apply, Option.bind_some,
    List.head?_cons, if_true, expect_cons, hname, if_false, fragmentName_cons hname, hdirs,
    pure_apply]

/-- The tokens of a type condition, which may be missing. -/
def conditionTokens (condition : Option Name) : List Token :=
  match condition with
  | some type => [.name "on", .name type.text]
  | none => []

theorem typeCondition?_append_some (type : Name) (rest : List Token) :
    typeCondition? (conditionTokens (some type) ++ rest) = some (some type, rest) :=
  rfl

/-- What begins with a punctuator still does after an optional part. -/
theorem Opens.head?_append {c d : Char} {ts rest : List Token} (h : Opens c ts)
    (hrest : rest.head? = some (.punctuator d)) :
    ∃ e, (ts ++ rest).head? = some (.punctuator e) := by
  cases ts with
  | nil => exact ⟨d, hrest⟩
  | cons t ts => exact ⟨c, congrArg some (h t rfl)⟩

/-- A selection set is no part of directives before it. -/
theorem notAt_of_opens_set {ss : List Token} (hset : ss.head? = some (.punctuator '\x7b'))
    {stops : List Char} (hstops : '\x7b' ∉ stops) (rest : List Token) :
    NotAt stops (ss ++ rest) := by
  intro c hc hhead
  rw [List.head?_append, hset, Option.some_or, Option.some.injEq, Token.punctuator.injEq] at hhead
  exact hstops (hhead ▸ hc)

/-- An inline fragment: three dots, a type condition, directives and selections. -/
theorem takes_selection_inlineFragment (condition : Option Name) {ds ss : List Token}
    {dirs : List (Directive Literal)} {set : SelectionSet Literal}
    (hdirectives : TakesPart directives '@' ['@', '('] ds dirs)
    (hset : Takes (fun fuel => selectionSet (selection fuel) fuel) [] ss set)
    (hopens : ss.head? = some (.punctuator '\x7b')) :
    Takes selection selectionStops (.spread :: (conditionTokens condition ++ (ds ++ ss)))
      (.inlineFragment ⟨condition, dirs, set⟩) := by
  intro fuel rest hfuel hrest
  obtain ⟨fuel, rfl, hlength⟩ := exists_fuel hfuel
  simp only [List.length_cons, List.length_append] at hlength
  have hdirs := hdirectives.takes fuel (ss ++ rest) (by omega)
    (notAt_of_opens_set hopens (by decide) rest)
  have hselections : selectionSet (selection fuel) fuel (ss ++ rest) = some (set, rest) :=
    hset fuel rest (by omega) (notAt_nil rest)
  cases condition with
  | some type =>
      have hpeek : (conditionTokens (some type) ++ (ds ++ (ss ++ rest))).head? =
          some (.name "on") := rfl
      simp only [selection, List.cons_append, List.append_assoc, bind_apply, peek_apply,
        Option.bind_some, List.head?_cons, if_true, expect_cons, hpeek,
        typeCondition?_append_some, hdirs, hselections, pure_apply]
  | none =>
      obtain ⟨c, hhead⟩ : ∃ c, (ds ++ (ss ++ rest)).head? = some (.punctuator c) :=
        hdirectives.opens.head?_append (by rw [List.head?_append, hopens, Option.some_or])
      simp only [selection, conditionTokens, List.cons_append, List.nil_append,
        List.append_assoc, bind_apply, peek_apply, Option.bind_some, List.head?_cons, if_true,
        expect_cons, hhead, hdirs, hselections, pure_apply]

/-! ### Types -/

/-- A list type or a named type, before it is known whether a mark follows. -/
def TakesNullable (ts : List Token) (type : NonNullType) : Prop :=
  ∀ fuel rest, ts.length ≤ fuel →
    nullableType (typeReference fuel) fuel (ts ++ rest) = some (type, rest)

theorem takesNullable_named (text : String) : TakesNullable [.name text] (.named ⟨text⟩) := by
  intro fuel rest _
  rfl

theorem takesNullable_list {ts : List Token} {items : List TypeReference}
    (h : Items typeReference ['!'] ']' ts items) :
    TakesNullable (.punctuator '[' :: (ts ++ [.punctuator ']'])) (.list items) := by
  intro fuel rest hfuel
  have hlength : ts.length < fuel := by
    simp only [List.length_cons, List.length_append, List.length_nil] at hfuel
    omega
  have hitems := itemsUntil_of_items h (by decide) hlength rest hlength
  simp only [nullableType, between, List.cons_append, List.append_assoc, List.nil_append,
    bind_apply, atPunctuator_apply, Option.bind_some, List.head?_cons, decide_true, if_true,
    punctuator_cons, hitems]
  rfl

theorem takes_typeReference_nullable {ts : List Token} {type : NonNullType}
    (h : TakesNullable ts type) : Takes typeReference ['!'] ts type.nullable := by
  intro fuel rest hfuel hrest
  obtain ⟨fuel, rfl, hlength⟩ := exists_fuel hfuel
  have hhead : rest.head? ≠ some (.punctuator '!') := hrest.head?_ne (by simp)
  simp only [typeReference, bind_apply, h fuel rest hlength, Option.bind_some, atPunctuator_apply,
    hhead, decide_false, Bool.false_eq_true, if_false, pure_apply]

theorem takes_typeReference_nonNull {ts : List Token} {type : NonNullType}
    (h : TakesNullable ts type) :
    Takes typeReference ['!'] (ts ++ [.punctuator '!']) (.nonNull type) := by
  intro fuel rest hfuel _
  obtain ⟨fuel, rfl, hlength⟩ := exists_fuel hfuel
  simp only [List.length_append] at hlength
  have htype := h fuel (.punctuator '!' :: rest) (by omega)
  simp only [typeReference, List.append_assoc, List.cons_append, List.nil_append, bind_apply,
    htype, Option.bind_some, atPunctuator_apply, List.head?_cons, decide_true, if_true,
    punctuator_cons, pure_apply]

/-! ### Definitions -/

/-- The tokens of a default value, which may be missing. -/
inductive TakesDefault : List Token → Option Literal → Prop
  | none : TakesDefault [] none
  | some {ts : List Token} {literal : Literal} :
      Takes value [] ts literal → TakesDefault (.punctuator '=' :: ts) (some literal)

def variableStops : List Char :=
  ['!', '=']

theorem takes_variableDefinition (text : String) {ts ds : List Token} {type : TypeReference}
    {default? : Option Literal} (htype : Takes typeReference ['!'] ts type)
    (hdefault : TakesDefault ds default?) :
    Takes variableDefinition variableStops
      (.punctuator '$' :: .name text :: .punctuator ':' :: (ts ++ ds)) ⟨⟨⟨text⟩⟩, type, default?⟩ := by
  intro fuel rest hfuel hrest
  simp only [List.length_cons, List.length_append] at hfuel
  cases hdefault with
  | none =>
      have hnext : NotAt ['!'] rest := hrest.mono (by decide)
      have htake := htype fuel rest (by omega) hnext
      have hhead : rest.head? ≠ some (.punctuator '=') := hrest.head?_ne (by decide)
      simp only [variableDefinition, named, List.cons_append, List.append_nil, bind_apply,
        punctuator_cons, Option.bind_some, name_cons, htake, pure_apply, atPunctuator_apply,
        hhead, decide_false, Bool.false_eq_true, if_false]
  | @some ds literal hvalue =>
      simp only [List.length_cons] at hfuel
      have htake := htype fuel (.punctuator '=' :: (ds ++ rest)) (by omega)
        (notAt_punctuator (by decide) _)
      have hliteral := hvalue fuel rest (by omega) (notAt_nil rest)
      simp only [variableDefinition, named, List.cons_append, List.append_assoc, bind_apply,
        punctuator_cons, Option.bind_some, name_cons, htake, pure_apply, atPunctuator_apply,
        List.head?_cons, decide_true, if_true, hliteral]

theorem takes_definition_shorthand {ss : List Token} {set : SelectionSet Literal}
    (hset : Takes (fun fuel => selectionSet (selection fuel) fuel) [] ss set)
    (hopens : ss.head? = some (.punctuator '\x7b')) :
    Takes definition [] ss (.operation { type := .query, selectionSet := set }) := by
  intro fuel rest hfuel hrest
  have hselections : selectionSet (selection fuel) fuel (ss ++ rest) = some (set, rest) :=
    hset fuel rest hfuel hrest
  have hhead : (ss ++ rest).head? = some (.punctuator '\x7b') := by
    rw [List.head?_append, hopens]
    rfl
  simp only [definition, bind_apply, atPunctuator_apply, Option.bind_some, hhead, decide_true,
    if_true, hselections, pure_apply]

/-- A fragment definition: its name, its type condition, its directives and its selections. -/
theorem takes_definition_fragment {text : String} (hname : text ≠ "on") (type : Name)
    {ds ss : List Token} {dirs : List (Directive Literal)} {set : SelectionSet Literal}
    (hdirectives : TakesPart directives '@' ['@', '('] ds dirs)
    (hset : Takes (fun fuel => selectionSet (selection fuel) fuel) [] ss set)
    (hopens : ss.head? = some (.punctuator '\x7b')) :
    Takes definition []
      (.name "fragment" :: .name text :: (conditionTokens (some type) ++ (ds ++ ss)))
      (.fragment ⟨⟨⟨text⟩⟩, type, dirs, set⟩) := by
  intro fuel rest hfuel hrest
  simp only [List.length_cons, List.length_append] at hfuel
  have hdirs := hdirectives.takes fuel (ss ++ rest) (by omega)
    (notAt_of_opens_set hopens (by decide) rest)
  have hselections : selectionSet (selection fuel) fuel (ss ++ rest) = some (set, rest) :=
    hset fuel rest (by omega) (notAt_nil rest)
  simp only [definition, List.cons_append, List.append_assoc, bind_apply, atPunctuator_apply,
    Option.bind_some, List.head?_cons, Option.some.injEq, reduceCtorEq, decide_false,
    Bool.false_eq_true, if_false, name_cons, if_true, fragmentName_cons hname,
    typeCondition?_append_some, hdirs, hselections, pure_apply]

/-- The tokens of the name of an operation, which may be missing. -/
def operationNameTokens (name? : Option Name) : List Token :=
  match name? with
  | some name => [.name name.text]
  | none => []

theorem operationName?_append (name? : Option Name) {c : Char} {rest : List Token}
    (hrest : rest.head? = some (.punctuator c)) :
    operationName? (operationNameTokens name? ++ rest) = some (name?, rest) := by
  cases name? with
  | some name => rfl
  | none =>
      simp only [operationName?, operationNameTokens, List.nil_append, bind_apply, peek_apply,
        Option.bind_some, hrest, pure_apply]

/-- The keyword of a fragment definition is that of no operation. -/
theorem ne_fragment_of_operationType? {keyword : String} {type : OperationType}
    (h : operationType? keyword = some type) : keyword ≠ "fragment" := by
  rintro rfl
  cases h

/-- An operation: its keyword, its name, its variables, its directives and its selections. -/
theorem takes_definition_operation {keyword : String} {type : OperationType}
    (hkeyword : operationType? keyword = some type) (name? : Option Name)
    {vs ds ss : List Token} {vars : List (VariableDefinition Literal)}
    {dirs : List (Directive Literal)} {set : SelectionSet Literal}
    (hvariables :
      TakesPart (fun fuel => parenthesized? (variableDefinition fuel) fuel) '(' ['('] vs vars)
    (hdirectives : TakesPart directives '@' ['@', '('] ds dirs)
    (hset : Takes (fun fuel => selectionSet (selection fuel) fuel) [] ss set)
    (hopens : ss.head? = some (.punctuator '\x7b')) :
    Takes definition []
      (.name keyword :: (operationNameTokens name? ++ (vs ++ (ds ++ ss))))
      (.operation ⟨type, name?, vars, dirs, set⟩) := by
  intro fuel rest hfuel hrest
  simp only [List.length_cons, List.length_append] at hfuel
  have hafterDirectives : NotAt ['@', '('] (ss ++ rest) :=
    notAt_of_opens_set hopens (by decide) rest
  have hafterVariables : NotAt ['('] (ds ++ (ss ++ rest)) :=
    hdirectives.opens.notAt (by decide) (hafterDirectives.mono (by decide))
  have hhead : (ss ++ rest).head? = some (.punctuator '\x7b') := by
    rw [List.head?_append, hopens, Option.some_or]
  obtain ⟨c, hafterName⟩ := hdirectives.opens.head?_append hhead
  obtain ⟨d, hafterName⟩ := hvariables.opens.head?_append hafterName
  have hname := operationName?_append name? hafterName
  have hvars : parenthesized? (variableDefinition fuel) fuel (vs ++ (ds ++ (ss ++ rest))) =
      some (vars, ds ++ (ss ++ rest)) :=
    hvariables.takes fuel _ (by omega) hafterVariables
  have hdirs := hdirectives.takes fuel (ss ++ rest) (by omega) hafterDirectives
  have hselections : selectionSet (selection fuel) fuel (ss ++ rest) = some (set, rest) :=
    hset fuel rest (by omega) (notAt_nil rest)
  have htype (ts : List Token) :
      (StateT.lift (operationType? keyword) : Reader OperationType) ts = some (type, ts) := by
    rw [hkeyword]
    rfl
  simp only [definition, List.cons_append, List.append_assoc, bind_apply, atPunctuator_apply,
    Option.bind_some, List.head?_cons, Option.some.injEq, reduceCtorEq, decide_false,
    Bool.false_eq_true, if_false, name_cons, ne_fragment_of_operationType? hkeyword, htype, hname,
    hvars, hdirs, hselections, pure_apply]

theorem definitions_of_items {closing : Char} {ts : List Token} {defs : List (Definition Literal)}
    (h : Items definition [] closing ts defs) {bound fuel : Nat} (hbound : ts.length < bound)
    (hfuel : ts.length < fuel) : definitions bound fuel ts = some (defs, []) := by
  induction h generalizing fuel with
  | nil =>
      obtain ⟨fuel, rfl, -⟩ := exists_fuel hfuel
      rfl
  | @cons ts us first defs htake hstart hitems ih =>
      obtain ⟨t, ts', rfl, -⟩ := hstart
      obtain ⟨fuel, rfl, hfuel'⟩ := exists_fuel hfuel
      simp only [List.length_append, List.length_cons] at hbound hfuel'
      have hfirst := htake bound us (by simp only [List.length_cons]; omega) (notAt_nil us)
      have hrest : definitions bound fuel us = some (defs, []) := ih (by omega) (by omega)
      have hhead : (t :: ts' ++ us).head? = some t := rfl
      simp only [definitions, bind_apply, peek_apply, Option.bind_some, hhead, hfirst, hrest,
        pure_apply]

end GraphQLText.Reader

namespace GraphQLText

/-- A text whose tokens are taken as a value is read as that value. -/
theorem Literal.read?_of_takes {text : String} {tokens : List Token} {literal : Literal}
    (hlex : Token.lex text.toList = some tokens)
    (h : Reader.Takes Reader.value [] tokens literal) : Literal.read? text = some literal := by
  have htake := h (tokens.length + 1) [] (Nat.lt_succ_self _) (Reader.notAt_nil [])
  rw [List.append_nil] at htake
  simp only [read?, hlex, Option.bind_eq_bind, Option.bind_some, htake, List.isEmpty_nil, if_true]

/-- A text whose tokens are taken as definitions, at least one, is read as a document. -/
theorem Document.read?_of_items {text : String} {closing : Char} {tokens : List Token}
    {defs : List (Definition Literal)} (hlex : Token.lex text.toList = some tokens)
    (h : Reader.Items Reader.definition [] closing tokens defs) (hne : defs ≠ []) :
    Document.read? text = some ⟨defs⟩ := by
  have hbound : tokens.length < tokens.length + 1 := by omega
  have hempty : defs.isEmpty = false := by simpa using hne
  simp only [read?, hlex, Option.bind_eq_bind, Option.bind_some,
    Reader.definitions_of_items h hbound hbound, hempty, Bool.false_eq_true, if_false]

end GraphQLText
