import GraphQLText.Proofs.Lexical.StringDecoding
import GraphQLText.Proofs.Printing.FirstFault
import GraphQLText.Proofs.Printing.Skeleton
import Mathlib.Data.List.Chain

/-!
# Compactness

A text is one line without control characters.  Outside of its strings it has single spaces only,
none at either end or at the inner side of a parenthesis or a bracket, and neither commas nor empty
parentheses.  All of this is a matter of neighbouring marks: no two marks of which one may stand
before the other bring together characters that clash.
-/

namespace GraphQLText

open StringLiteral Token

/-- Characters that are no neighbours in a compact text: two spaces, empty parentheses, and a space
at the wrong side of a punctuator. -/
inductive Clash : Char → Char → Prop
  | spaces : Clash ' ' ' '
  | parentheses : Clash '(' ')'
  | after {c : Char} : c ∈ ['(', '[', '$', '@'] → Clash c ' '
  | before {d : Char} : d ∈ [')', ']', ':', '!'] → Clash ' ' d

/-- A text without a space at its ends, without commas and without neighbours that clash. -/
structure IsCompact (cs : List Char) : Prop where
  head : cs.head? ≠ some ' '
  last : cs.getLast? ≠ some ' '
  comma : ',' ∉ cs
  neighbours : cs.IsChain fun c d => ¬ Clash c d

theorem Clash.left_mem {c d : Char} (h : Clash c d) : c ∈ [' ', '(', '[', '$', '@'] := by
  cases h with
  | spaces => decide
  | parentheses => decide
  | after hc => exact List.mem_cons_of_mem _ hc
  | before _ => decide

theorem Clash.right_mem {c d : Char} (h : Clash c d) : d ∈ [' ', ')', ']', ':', '!'] := by
  cases h with
  | spaces => decide
  | parentheses => decide
  | after _ => decide
  | before hd => exact List.mem_cons_of_mem _ hd

theorem not_clash_emptyList : ¬ Clash '[' ']' := by
  intro h
  cases h

/-- Plain characters and quotes clash with nothing, and are neither spaces nor commas. -/
theorem notMem_of_isPlain {c : Char} (h : IsPlain c ∨ c = '"') :
    c ∉ [' ', ',', '(', '[', '$', '@', ')', ']', ':', '!'] := by
  have hall : ∀ d ∈ [' ', ',', '(', '[', '$', '@', ')', ']', ':', '!'],
      ¬ (IsPlain d ∨ d = '"') :=
    List.forall_iff_forall_mem.mp (by decide)
  exact fun hmem => hall c hmem h

theorem notMem_of_isPlain_of_subset {c : Char} (h : IsPlain c ∨ c = '"') {cs : List Char}
    (hcs : cs ⊆ [' ', ',', '(', '[', '$', '@', ')', ']', ':', '!']) : c ∉ cs :=
  fun hmem => notMem_of_isPlain h (hcs hmem)

theorem not_clash_of_isPlain {c : Char} (h : IsPlain c ∨ c = '"') (d : Char) : ¬ Clash c d := by
  intro hclash
  exact notMem_of_isPlain_of_subset h (by decide) hclash.left_mem

namespace Mark

/-! ### One mark -/

/-- A mark outside of strings: a space, a punctuator or plain characters and quotes. -/
theorem skeleton_cases {mark : Mark} (hproper : mark.IsProper) (hfault : mark.fault? = none) :
    mark = space ∨ (∃ c, isPunctuator c = true ∧ mark = punctuator c) ∨
      ∀ c ∈ mark.skeleton, IsPlain c ∨ c = '"' := by
  by_cases hstring : ∀ s, mark ≠ string s
  · rw [skeleton_of_ne_string hstring]
    rcases text_cases hproper hfault hstring with hspace | hpunctuator | hplain
    · exact Or.inl hspace
    · exact Or.inr (Or.inl hpunctuator)
    · exact Or.inr (Or.inr fun c hc => Or.inl (hplain c hc))
  · push Not at hstring
    obtain ⟨s, rfl⟩ := hstring
    right
    right
    intro c hc
    right
    simpa [skeleton] using hc

/-- A solid mark has plain characters, apart from the quotes of a string. -/
theorem IsSolid.mem_skeleton {mark : Mark} (hsolid : mark.IsSolid) (hproper : mark.IsProper)
    (hfault : mark.fault? = none) : ∀ c ∈ mark.skeleton, IsPlain c ∨ c = '"' := by
  rcases skeleton_cases hproper hfault with rfl | ⟨c, -, rfl⟩ | hall
  · exact hsolid.elim
  · exact hsolid.elim
  · exact hall

/-- Of all marks only the space has a space in its structure, and none has a comma. -/
theorem space_comma_notMem_skeleton {mark : Mark} (hproper : mark.IsProper)
    (hfault : mark.fault? = none) :
    (mark ≠ space → ' ' ∉ mark.skeleton) ∧ ',' ∉ mark.skeleton := by
  rcases skeleton_cases hproper hfault with rfl | ⟨c, hc, rfl⟩ | hplain
  · exact ⟨fun h => absurd rfl h, by decide⟩
  · have hall : isPunctuator ' ' = false ∧ isPunctuator ',' = false := by decide
    constructor
    · intro _ hmem
      rw [List.mem_singleton.mp hmem, hc] at hall
      exact Bool.noConfusion hall.1
    · intro hmem
      rw [List.mem_singleton.mp hmem, hc] at hall
      exact Bool.noConfusion hall.2
  · exact ⟨fun _ hmem => notMem_of_isPlain (hplain _ hmem) (by decide),
      fun hmem => notMem_of_isPlain (hplain _ hmem) (by decide)⟩

/-- Nothing clashes inside of a mark. -/
theorem isChain_skeleton {mark : Mark} (hproper : mark.IsProper) (hfault : mark.fault? = none) :
    mark.skeleton.IsChain fun c d => ¬ Clash c d := by
  rcases skeleton_cases hproper hfault with rfl | ⟨c, hc, rfl⟩ | hplain
  · exact .singleton _
  · exact .singleton _
  · apply List.Pairwise.isChain
    rw [List.pairwise_iff_forall_sublist]
    intro c d hsublist
    exact not_clash_of_isPlain (hplain c (hsublist.mem List.mem_cons_self)) d

/-- No mark is invisible. -/
theorem skeleton_ne_nil {mark : Mark} (hproper : mark.IsProper) (hfault : mark.fault? = none) :
    mark.skeleton ≠ [] := by
  cases mark with
  | space => exact List.cons_ne_nil _ _
  | punctuator c => exact List.cons_ne_nil _ _
  | spread => exact List.cons_ne_nil _ _
  | word w =>
      intro hempty
      rw [skeleton, text] at hempty
      · rw [IsProper, hempty] at hproper
        exact hproper
      · simp
  | int n =>
      obtain ⟨c, rest, heq, -⟩ := (Numeral.isIntValue_ofInt n.toInt).exists_cons
      simp [skeleton, text, heq]
  | string s => exact List.cons_ne_nil _ _
  | leaf l => exact l.text_ne_nil hfault

/-! ### Neighbouring marks -/

/-- A mark that opens an item clashes with nothing before it. -/
theorem Opens.head_skeleton {mark : Mark} (h : mark.Opens) (hproper : mark.IsProper)
    (hfault : mark.fault? = none) :
    ∀ d ∈ mark.skeleton.head?, d ∉ [' ', ')', ']', ':', '!'] := by
  intro d hd
  rcases h with hsolid | rfl | ⟨c, hc, rfl⟩
  · have hplain := hsolid.mem_skeleton hproper hfault d (List.mem_of_mem_head? hd)
    exact notMem_of_isPlain_of_subset hplain (by decide)
  · rw [show d = '.' from (Option.some.inj hd).symm]
    decide
  · rw [← Option.some.inj hd]
    have hall : ∀ c ∈ ['$', '[', '\x7b', '@'], c ∉ [' ', ')', ']', ':', '!'] := by simp
    exact hall c hc

/-- A mark that closes an item clashes with nothing after it. -/
theorem Closes.last_skeleton {mark : Mark} (h : mark.Closes) (hproper : mark.IsProper)
    (hfault : mark.fault? = none) :
    ∀ c ∈ mark.skeleton.getLast?, c ∉ [' ', '(', '[', '$', '@'] := by
  intro c hc
  rcases h with hsolid | ⟨d, hd, rfl⟩
  · have hplain := hsolid.mem_skeleton hproper hfault c (List.mem_of_mem_getLast? hc)
    exact notMem_of_isPlain_of_subset hplain (by decide)
  · rw [← Option.some.inj hc]
    have hall : ∀ d ∈ [')', ']', '\x7d', '!'], d ∉ [' ', '(', '[', '$', '@'] := by simp
    exact hall d hd

/-- Marks of which one may stand before the other do not clash. -/
theorem Precedes.not_clash {m n : Mark} (h : m.Precedes n) (hm : m.IsProper ∧ m.fault? = none)
    (hn : n.IsProper ∧ n.fault? = none) {c d : Char} (hc : c ∈ m.skeleton.getLast?)
    (hd : d ∈ n.skeleton.head?) : ¬ Clash c d := by
  intro hclash
  have hleft := hclash.left_mem
  have hright := hclash.right_mem
  cases h with
  | item hcloses _ => exact hcloses.last_skeleton hm.1 hm.2 c hc hleft
  | space hopens => exact hopens.head_skeleton hn.1 hn.2 d hd hright
  | opening _ hopens => exact hopens.head_skeleton hn.1 hn.2 d hd hright
  | sigil _ hsolid =>
      have hopens : n.Opens := Or.inl hsolid
      exact hopens.head_skeleton hn.1 hn.2 d hd hright
  | separator hcolon =>
      rw [← Option.some.inj hc] at hleft
      have hall : ∀ c ∈ [':', '='], c ∉ [' ', '(', '[', '$', '@'] := by simp
      exact hall _ hcolon hleft
  | beforeEquals =>
      rw [← Option.some.inj hd] at hright
      exact absurd hright (by decide)
  | spread =>
      rw [← Option.some.inj hc] at hleft
      exact absurd hleft (by decide)
  | emptyList =>
      rw [← Option.some.inj hc, ← Option.some.inj hd] at hclash
      exact not_clash_emptyList hclash
  | emptyObject =>
      rw [← Option.some.inj hc] at hleft
      exact absurd hleft (by decide)
  | blockOpening =>
      rw [← Option.some.inj hc] at hleft
      exact absurd hleft (by decide)
  | blockClosing =>
      rw [← Option.some.inj hd] at hright
      exact absurd hright (by decide)

/-! ### Sequences of marks -/

/-- The first character of marks without a fault is that of the first mark. -/
theorem head?_flatMap_skeleton {mark : Mark} (hmark : mark.IsProper ∧ mark.fault? = none)
    (rest : List Mark) : ((mark :: rest).flatMap skeleton).head? = mark.skeleton.head? := by
  rw [List.flatMap_cons, List.head?_append_of_ne_nil _ (skeleton_ne_nil hmark.1 hmark.2)]

/-- Well spaced marks without a fault bring no characters together that clash. -/
theorem isChain_flatMap_skeleton {marks : List Mark} (hchain : marks.IsChain Precedes)
    (h : ∀ mark ∈ marks, mark.IsProper ∧ mark.fault? = none) :
    (marks.flatMap skeleton).IsChain fun c d => ¬ Clash c d := by
  induction marks with
  | nil => exact .nil
  | cons mark rest ih =>
      obtain ⟨hmark, hrest⟩ := List.forall_mem_cons.mp h
      rw [List.flatMap_cons, List.isChain_append]
      refine ⟨isChain_skeleton hmark.1 hmark.2, ih hchain.tail hrest, ?_⟩
      intro c hc d hd
      cases rest with
      | nil => cases hd
      | cons next rest =>
          have hnext := (List.forall_mem_cons.mp hrest).1
          have hprecedes : mark.Precedes next := hchain.rel_head? (by simp)
          rw [head?_flatMap_skeleton hnext] at hd
          exact hprecedes.not_clash hmark hnext hc hd

/-- Trimmed marks without a fault make a compact text. -/
theorem Trimmed.isCompact {marks : List Mark} (h : Trimmed marks)
    (hfault : ∀ mark ∈ marks, mark.fault? = none) : IsCompact (marks.flatMap skeleton) := by
  have hmarks : ∀ mark ∈ marks, mark.IsProper ∧ mark.fault? = none :=
    fun mark hmark => ⟨h.isProper mark hmark, hfault mark hmark⟩
  have hspaced : ∀ mark ∈ marks ++ [space], mark.IsProper ∧ mark.fault? = none := by
    intro mark hmark
    rcases List.mem_append.mp hmark with hmark | hmark
    · exact hmarks mark hmark
    · rw [List.mem_singleton.mp hmark]
      exact ⟨trivial, rfl⟩
  have hchain := isChain_flatMap_skeleton h.spaced.1 hspaced
  rw [List.flatMap_append, List.isChain_append] at hchain
  obtain ⟨hneighbours, -, hlast⟩ := hchain
  constructor
  · intro hhead
    cases marks with
    | nil => cases hhead
    | cons mark rest =>
        obtain ⟨hproper, hnone⟩ := hmarks mark List.mem_cons_self
        rw [head?_flatMap_skeleton ⟨hproper, hnone⟩] at hhead
        exact (space_comma_notMem_skeleton hproper hnone).1 (h.head mark rfl)
          (List.mem_of_mem_head? hhead)
  · intro hspace
    exact hlast ' ' hspace ' ' rfl .spaces
  · intro hcomma
    obtain ⟨mark, hmark, hmem⟩ := List.mem_flatMap.mp hcomma
    obtain ⟨hproper, hnone⟩ := hmarks mark hmark
    exact (space_comma_notMem_skeleton hproper hnone).2 hmem
  · exact hneighbours

/-! ### Control characters -/

theorem isControl_of_isPunctuator {c : Char} (h : isPunctuator c = true) : isControl c = false := by
  have hall : ∀ d ∈ ['!', '$', '(', ')', ':', '=', '@', '[', ']', '\x7b', '|', '\x7d'],
      isControl d = false :=
    List.forall_iff_forall_mem.mp (by decide)
  exact hall c (List.contains_iff_mem.mp h)

/-- A mark without a fault writes no control character, not even for one inside of a string. -/
theorem isControl_of_mem_text {mark : Mark} (hproper : mark.IsProper) (hfault : mark.fault? = none)
    {c : Char} (hc : c ∈ mark.text) : isControl c = false := by
  by_cases hstring : ∀ s, mark ≠ string s
  · rcases text_cases hproper hfault hstring with rfl | ⟨d, hd, rfl⟩ | hplain
    · rw [List.mem_singleton.mp hc]
      decide
    · rw [List.mem_singleton.mp hc]
      exact isControl_of_isPunctuator hd
    · exact (hplain c hc).ne.1
  · push Not at hstring
    obtain ⟨s, rfl⟩ := hstring
    exact isControl_of_mem_ofString hc

theorem isControl_of_mem_written {marks : List Mark} (hproper : ∀ mark ∈ marks, mark.IsProper)
    {c : Char} (hc : c ∈ written marks) : isControl c = false := by
  rw [written_eq_beforeFault, List.mem_flatMap] at hc
  obtain ⟨mark, hmark, hc⟩ := hc
  obtain ⟨hmem, hfault⟩ := of_mem_beforeFault hmark
  exact isControl_of_mem_text (hproper mark hmem) hfault hc

end Mark

/-! ### Nodes -/

/-- Whatever a node appends to a text, and whether or not it comes to its end, there is no control
character in it.  The text of a node is compact outside of its strings. -/
theorem Node.isCompact_strip_of_print (node : Node) :
    (∀ text, ∃ part, (node.printer.appendTo text).2 = text ++ part ∧
      ∀ c ∈ part.toList, isControl c = false) ∧
    ∀ text, node.print = .ok text → IsCompact (strip text.toList) := by
  have htrimmed := node.trimmed
  constructor
  · intro text
    refine ⟨node.part, by rw [node.appends text], ?_⟩
    intro c hc
    rw [node.toList_part] at hc
    exact Mark.isControl_of_mem_written htrimmed.isProper hc
  · intro text hprint
    obtain ⟨-, hfault, rfl⟩ := Node.print_eq_ok_iff.mp hprint
    have hnone : ∀ mark ∈ node.marks, mark.fault? = none :=
      List.findSome?_eq_none_iff.mp hfault
    have hstrip := (Mark.scan_written htrimmed.isProper).2
    rw [Mark.written_eq_flatMap hfault, Mark.beforeFault_eq_self hfault] at hstrip
    rw [String.toList_ofList, strip, hstrip]
    exact htrimmed.isCompact hnone

/-- A field with every optional part, some of them empty inside: a list, an object and a string with
spaces, commas and parentheses. -/
theorem Node.isCompact_strip_of_print_nested :
    let node : Node := .field {
      aliasName := some ⟨"a"⟩
      name := ⟨"f"⟩
      arguments := ⟨[⟨⟨"x"⟩, .list []⟩, ⟨⟨"y"⟩, .object [(⟨"k"⟩, .string " ,(\x0b) ")]⟩]⟩
      directives := [⟨⟨"d"⟩, {}⟩]
      selectionSet := ⟨[.inlineFragment { selectionSet := ⟨[]⟩ }]⟩ }
    let text := "a: f(x: [] y: \x7bk: \" ,(\\u000b) \"\x7d) @d \x7b ... \x7b \x7d \x7d"
    node.print = .ok text ∧ IsCompact (strip text.toList) := by
  intro node text
  have hprint : node.print = .ok text := by decide +kernel
  exact ⟨hprint, (Node.isCompact_strip_of_print node).2 text hprint⟩

end GraphQLText
