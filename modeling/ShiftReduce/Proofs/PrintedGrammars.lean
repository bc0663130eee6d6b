import ShiftReduce.Grammar.Printer
import ShiftReduce.Proofs.WrittenGrammars

/-!
# Printed grammars are read back

The rules of a grammar that was read from a text, each printed on a line of its own, are a text
again, and that text defines the same grammar.

Names come back because they were read before. A left-hand side stood before an arrow at the
beginning of a line, so it has no arrow in it and does not begin a comment; a name on the right
stood between bars, so it has neither arrows nor bars (`Spells.printable`). Blanks set the names
apart in print, and no arrow arises across a blank (`Production.spells_text`). Numbers come back
because they depend on nothing but the productions in their order (`define_congr`), whichever lines
these are spread over.
-/

namespace ShiftReduce

open ProductionLine

/-! ## Printed productions -/

/-- The names of a right-hand side as they are printed. -/
def printedNames (right : List String) : List String :=
  if right.isEmpty then [epsilonName] else right

def Production.text (p : Production) : String :=
  " ".intercalate (p.left :: "->" :: printedNames p.right)

/-- What printing a production relies on. -/
structure Production.Printable (p : Production) : Prop where
  left : UsableName p.left
  left_arrow : ¬ arrow <:+: p.left.toList
  left_comment : p.left.toList.head? ≠ some '#'
  right : ∀ name ∈ p.right, UsableName name
  right_arrow : ∀ name ∈ p.right, ¬ arrow <:+: name.toList
  right_bar : ∀ name ∈ p.right, '|' ∉ name.toList

theorem intercalate_cons {α : Type} (c : α) (part : List α) (parts : List (List α)) :
    [c].intercalate (part :: parts) = part ++ parts.flatMap (c :: ·) := by
  induction parts generalizing part with
  | nil => simp [List.intercalate]
  | cons next parts ih =>
    have hStep : [c].intercalate (part :: next :: parts) =
        part ++ c :: [c].intercalate (next :: parts) := by
      simp [List.intercalate]
    rw [hStep, ih, List.flatMap_cons, List.cons_append]

theorem infix_intercalate {α : Type} {c : α} {part : List α} {parts : List (List α)}
    (h : part ∈ parts) : part <:+: [c].intercalate parts := by
  obtain ⟨before, after, rfl⟩ := List.append_of_mem h
  cases before with
  | nil =>
    rw [List.nil_append, intercalate_cons]
    exact (List.prefix_append _ _).isInfix
  | cons first before =>
    rw [List.cons_append, intercalate_cons, List.flatMap_append, List.flatMap_cons]
    exact ⟨first ++ before.flatMap (c :: ·) ++ [c], after.flatMap (c :: ·), by simp⟩

/-! ## What has been read can be printed -/

/-- A text whose first character is no blank begins with its first word. -/
theorem Text.Separated.head?_eq {word text : List Char} {words : List (List Char)}
    (h : Separated (word :: words) text) (hWord : word ≠ [])
    (hHead : ∀ c ∈ text.head?, isBlank c = false) : text.head? = word.head? := by
  cases h with
  | last => rfl
  | blank hBlank _ => exact absurd (hHead _ rfl) (by simp [hBlank])
  | word _ _ _ => rw [List.head?_append_of_ne_nil _ hWord]

/-- The symbols of an alternative stand in its text. -/
theorem ProductionLine.SpellsAlternative.infix_of_mem {names : List String} {text : List Char}
    {name : String} (h : SpellsAlternative names text) (hName : name ∈ names) :
    name.toList <:+: text := by
  cases h with
  | epsilon _ => cases hName
  | symbols hHolds _ => exact hHolds.1.infix_of_mem (List.mem_map_of_mem hName)

theorem ProductionLine.Spells.printable {line : ProductionLine} {text : List Char}
    (h : line.Spells text) (hHead : ∀ c ∈ text.head?, Text.isBlank c = false)
    (hWritten : isSkipped text = false) : ∀ p ∈ line.productions, p.Printable := by
  have hUsable := h.usable
  obtain ⟨front, pieces, h⟩ := h
  have hLeft : line.left.toList ≠ [] := (isWord_iff.mp hUsable.left.1).1
  have hLeftPart : line.left.toList <:+: front :=
    h.left_holds.1.infix_of_mem List.mem_cons_self
  have hFront : front ≠ [] := by
    rintro rfl
    exact hLeft (List.infix_nil.mp hLeftPart)
  have hHeads : text.head? = line.left.toList.head? := by
    have hSame : text.head? = front.head? := by
      rw [h.divides.eq, List.append_assoc, List.head?_append_of_ne_nil _ hFront]
    rw [hSame] at hHead ⊢
    exact h.left_holds.1.head?_eq hLeft hHead
  intro p hp
  obtain ⟨right, hRight, rfl⟩ := List.mem_map.mp hp
  obtain ⟨piece, hPiece, hSpells⟩ := exists_of_forall₂ h.alternatives hRight
  refine ⟨hUsable.left, fun hInfix => h.divides.front (hInfix.trans hLeftPart), ?_,
    hUsable.right right hRight, fun name hName hInfix => ?_, fun name hName hBar => ?_⟩
  · intro hComment
    rw [← hHeads] at hComment
    simp [isSkipped, hComment] at hWritten
  · have hPart := hSpells.infix_of_mem hName
    exact h.divides.back (hInfix.trans (hPart.trans (infix_intercalate hPiece)))
  · exact h.pieces_free piece hPiece ((hSpells.infix_of_mem hName).subset hBar)

theorem ProductionLine.SpelledBy.printable {lines : List ProductionLine} {source : String}
    (h : SpelledBy lines source) : ∀ p ∈ lines.flatMap productions, p.Printable := by
  intro p hp
  obtain ⟨line, hLine, hp⟩ := List.mem_flatMap.mp hp
  obtain ⟨entry, hEntry, _, hSpells⟩ := exists_of_forall₂ h hLine
  obtain ⟨hSource, hWritten⟩ := exists_of_mem_written hEntry
  obtain ⟨text, _, hText⟩ := List.mem_map.mp hSource
  refine hSpells.printable (fun c hc => ?_) hWritten p hp
  rw [← hText] at hc
  exact Text.isBlank_head_trim hc

/-! ## Printed lines are read back -/

namespace Text

variable {word : List Char} {words : List (List Char)}

theorem separated_append_flatMap :
    Separated (word :: words) (word ++ words.flatMap (' ' :: ·)) := by
  induction words generalizing word with
  | nil =>
    rw [List.flatMap_nil, List.append_nil]
    exact .last word
  | cons next words ih => exact .word word (by decide) ih

theorem separated_flatMap : Separated words (words.flatMap (' ' :: ·)) := by
  cases words with
  | nil => exact .nil
  | cons word words => exact .blank (by decide) separated_append_flatMap

/-- Words with a blank between any two of them are trimmed. -/
theorem trim_append_flatMap
    (hWords : ∀ w ∈ word :: words, w ≠ [] ∧ ∀ c ∈ w, isBlank c = false) :
    trim (word ++ words.flatMap (' ' :: ·)) = word ++ words.flatMap (' ' :: ·) := by
  apply trim_eq_self
  · have hWord := hWords word List.mem_cons_self
    rw [List.head?_append_of_ne_nil _ hWord.1]
    exact fun c hc => hWord.2 c (List.mem_of_mem_head? hc)
  · induction words generalizing word with
    | nil =>
      rw [List.flatMap_nil, List.append_nil]
      exact fun c hc => (hWords word List.mem_cons_self).2 c (List.mem_of_mem_getLast? hc)
    | cons next words ih =>
      rw [List.forall_mem_cons] at hWords
      have hNe : next ++ words.flatMap (' ' :: ·) ≠ [] :=
        List.append_ne_nil_of_left_ne_nil (hWords.2 next List.mem_cons_self).1 _
      rw [List.flatMap_cons, List.cons_append, List.getLast?_append_of_ne_nil _ (by simp),
        List.getLast?_cons_of_ne_nil hNe]
      exact ih hWords.2

end Text

namespace Production

variable {p : Production}

theorem toList_text : p.text.toList = p.left.toList ++
    (arrow :: (printedNames p.right).map String.toList).flatMap (' ' :: ·) := by
  rw [text, String.toList_intercalate, List.map_cons, List.map_cons, ← intercalate_cons]
  rfl

theorem Printable.printed (h : p.Printable) : ∀ name ∈ printedNames p.right,
    isWord name = true ∧ ¬ arrow <:+: name.toList ∧ '|' ∉ name.toList := by
  unfold printedNames
  split
  · rw [List.forall_mem_singleton]
    decide
  · exact fun name hName =>
      ⟨(h.right name hName).1, h.right_arrow name hName, h.right_bar name hName⟩

/-- The words that are printed. -/
theorem Printable.words (h : p.Printable) :
    ∀ word ∈ p.left.toList :: arrow :: (printedNames p.right).map String.toList,
      word ≠ [] ∧ ∀ c ∈ word, Text.isBlank c = false := by
  rw [List.forall_mem_cons, List.forall_mem_cons, forall_isWord_iff]
  exact ⟨isWord_iff.mp h.left.1, ⟨by decide, isBlank_arrow⟩,
    fun name hName => (h.printed name hName).1⟩

theorem Printable.trim_text (h : p.Printable) : Text.trim p.text.toList = p.text.toList := by
  rw [toList_text]
  exact Text.trim_append_flatMap h.words

theorem Printable.isSkipped_text (h : p.Printable) : isSkipped p.text.toList = false := by
  have hLeft := (isWord_iff.mp h.left.1).1
  have hHead : p.text.toList.head? = p.left.toList.head? := by
    rw [toList_text, List.head?_append_of_ne_nil _ hLeft]
  have hText : p.text.toList ≠ [] := by
    rw [toList_text]
    exact List.append_ne_nil_of_left_ne_nil hLeft _
  simp [isSkipped, hText, hHead, h.left_comment]

/-- A printed production takes one line only. -/
theorem Printable.one_line (h : p.Printable) : '\n' ∉ p.text.toList := by
  have hWord : ∀ word ∈ p.left.toList :: arrow :: (printedNames p.right).map String.toList,
      '\n' ∉ word := fun word hWord hMem =>
    absurd ((h.words word hWord).2 _ hMem) (by decide)
  rw [List.forall_mem_cons] at hWord
  rw [toList_text, List.mem_append, not_or]
  refine ⟨hWord.1, fun hMem => ?_⟩
  obtain ⟨word, hMemWord, hMem⟩ := List.mem_flatMap.mp hMem
  exact hWord.2 word hMemWord ((List.mem_cons.mp hMem).resolve_left (by decide))

theorem Printable.spellsAlternative (h : p.Printable) : SpellsAlternative p.right
    (((printedNames p.right).map String.toList).flatMap (' ' :: ·)) := by
  have hHolds : Holds (printedNames p.right)
      (((printedNames p.right).map String.toList).flatMap (' ' :: ·)) :=
    ⟨Text.separated_flatMap, fun name hName => (h.printed name hName).1⟩
  revert hHolds
  unfold printedNames
  split
  · next hNil =>
    rw [List.isEmpty_iff.mp hNil]
    exact .epsilon
  · exact fun hHolds => .symbols hHolds fun name hName => (h.right name hName).2

/-- A printed production is a production line with a single alternative. -/
theorem Printable.spells_text (h : p.Printable) (number : Nat) :
    (⟨number, p.left, [p.right]⟩ : ProductionLine).Spells p.text.toList := by
  have hLeft : Text.Separated [p.left.toList] (p.left.toList ++ [' ']) :=
    .word p.left.toList (by decide) .nil
  refine ⟨p.left.toList ++ [' '], [((printedNames p.right).map String.toList).flatMap (' ' :: ·)],
    ⟨?_, ?_, ?_⟩, ⟨hLeft, ?_⟩, h.left.2, by simp, ?_, .cons h.spellsAlternative .nil⟩
  · rw [toList_text]
    simp [bars]
  · refine hLeft.not_infix (by decide) isBlank_arrow ?_
    rw [List.forall_mem_singleton]
    exact h.left_arrow
  · rw [bars, List.intercalate_singleton]
    refine Text.separated_flatMap.not_infix (by decide) isBlank_arrow ?_
    rw [List.forall_mem_map]
    exact fun name hName => (h.printed name hName).2.1
  · rw [List.forall_mem_singleton]
    exact h.left.1
  · rw [List.forall_mem_singleton]
    intro hBar
    obtain ⟨word, hWord, hBar⟩ := List.mem_flatMap.mp hBar
    obtain ⟨name, hName, rfl⟩ := List.mem_map.mp hWord
    exact (h.printed name hName).2.2 ((List.mem_cons.mp hBar).resolve_left (by decide))

end Production

/-! ## Printed grammars are read back -/

namespace ProductionLine

/-- Lines with one production each, numbered in order. -/
def ofProductions (ps : List Production) : List ProductionLine :=
  (ps.zipIdx 1).map fun entry => ⟨entry.2, entry.1.left, [entry.1.right]⟩

variable {ps : List Production} {lines lines' : List ProductionLine}

theorem productions_ofProductions : (ofProductions ps).flatMap productions = ps := by
  rw [ofProductions, List.flatMap_map]
  calc (ps.zipIdx 1).flatMap (fun entry => [⟨entry.1.left, entry.1.right⟩])
    _ = (ps.zipIdx 1).map Prod.fst := List.map_eq_flatMap.symm
    _ = ps := List.zipIdx_map_fst 1 ps

theorem spelledBy_ofProductions (hNe : ps ≠ []) (h : ∀ p ∈ ps, p.Printable) :
    SpelledBy (ofProductions ps) ("\n".intercalate (ps.map Production.text)) := by
  have hLines : sourceLines ("\n".intercalate (ps.map Production.text)) =
      ps.map fun p => p.text.toList := by
    have hOneLine : ∀ text ∈ (ps.map Production.text).map String.toList, '\n' ∉ text := by
      rw [List.forall_mem_map, List.forall_mem_map]
      exact fun p hp => (h p hp).one_line
    have hLines : Text.lines ("\n".intercalate (ps.map Production.text)).toList =
        (ps.map Production.text).map String.toList := by
      rw [Text.lines, String.toList_intercalate]
      exact List.splitOn_intercalate '\n' hOneLine (by simpa using hNe)
    rw [sourceLines, hLines, List.map_map, List.map_map]
    exact List.map_congr_left fun p hp => (h p hp).trim_text
  have hWritten : written ("\n".intercalate (ps.map Production.text)) =
      (ps.map fun p => p.text.toList).zipIdx 1 := by
    rw [written_eq, hLines, List.filter_eq_self]
    intro entry hEntry
    obtain ⟨p, hp, hText⟩ := List.mem_map.mp (List.fst_mem_of_mem_zipIdx hEntry)
    rw [← hText, (h p hp).isSkipped_text, Bool.not_false]
  rw [SpelledBy, hWritten, ofProductions, List.zipIdx_map, List.forall₂_map_left_iff,
    List.forall₂_map_right_iff, List.forall₂_same]
  exact fun entry hEntry => ⟨rfl, (h _ (List.fst_mem_of_mem_zipIdx hEntry)).spells_text _⟩

/-- Each line has a production, so the left-hand sides can be told from these. -/
theorem leftNames_eq (hUsable : ∀ line ∈ lines, line.Usable) :
    leftNames lines = ((lines.flatMap productions).map (·.left)).eraseDups := by
  unfold leftNames
  induction lines with
  | nil => rfl
  | cons line lines ih =>
    rw [List.forall_mem_cons] at hUsable
    obtain ⟨right, rights, hRights⟩ := List.exists_cons_of_ne_nil hUsable.1.alternatives_ne_nil
    have hNames : line.productions.map (·.left) = line.left :: rights.map fun _ => line.left := by
      rw [productions, hRights, List.map_map, List.map_cons]
      rfl
    have hRepeated : (rights.map fun _ => line.left).filter (!· == line.left) = [] := by
      simp
    rw [List.map_cons, List.flatMap_cons, List.map_append, hNames, List.cons_append,
      List.eraseDups_cons, List.eraseDups_cons, List.filter_append, hRepeated, List.nil_append,
      eraseDups_filter, eraseDups_filter, ih hUsable.2]

/-- Which grammar lines define depends on their productions only. -/
theorem define_congr (hUsable : ∀ line ∈ lines, line.Usable)
    (hUsable' : ∀ line ∈ lines', line.Usable)
    (hSame : lines'.flatMap productions = lines.flatMap productions) {g : Grammar}
    (h : Grammar.define (Draft.productionLines lines) = .ok g) :
    Grammar.define (Draft.productionLines lines') = .ok g := by
  have hLeft : leftNames lines' = leftNames lines := by
    rw [leftNames_eq hUsable', hSame, leftNames_eq hUsable]
  have hOther : otherNames lines' = otherNames lines := by
    rw [← declaring_productions, hSame, hLeft, declaring_productions]
  have hRules : definedRules lines' = definedRules lines := by
    rw [definedRules, hSame, hLeft, hOther, definedRules]
  obtain ⟨d, hKeeps, hDefine⟩ | ⟨_, e, hDefine, _⟩ := Grammar.define_productionLines hUsable
  · have hWithin := hKeeps.withinLimits
    obtain ⟨d', hKeeps', hDefine'⟩ | ⟨hNot, _⟩ := Grammar.define_productionLines hUsable'
    · rw [hLeft, hOther, hRules] at hKeeps'
      rw [hDefine', hKeeps'.unique hKeeps, ← hDefine, h]
    · exact absurd ⟨hLeft ▸ hWithin.nonterminals, hOther ▸ hWithin.terminals,
        hSame ▸ hWithin.rules⟩ hNot
  · rw [hDefine] at h
    cases h

end ProductionLine

/-- The texts in a row, if there is one for each element. -/
theorem mapM_eq_some {α β : Type} {f : α → Option β} {l : List α} {results : List β}
    (h : l.map f = results.map some) : l.mapM f = some results := by
  induction l generalizing results with
  | nil =>
    rw [List.map_nil, eq_comm, List.map_eq_nil_iff] at h
    rw [h]
    rfl
  | cons a l ih =>
    cases results with
    | nil => cases h
    | cons b results =>
      rw [List.map_cons, List.map_cons, List.cons.injEq] at h
      rw [List.mapM_cons, h.1, ih h.2]
      rfl

namespace Grammar

theorem Names.text_eq {g : Grammar} {p : Production} {rule : Rule} (h : g.Names p rule) :
    rule.text? g = some p.text := by
  have hLeft : g.nonterminals[rule.left]? = some p.left := h.1
  rw [Rule.text?, hLeft, mapM_eq_some h.2]
  rfl

/-- The rules behind the augmented rule, each on a line of its own. -/
def rulesText? (g : Grammar) : Option String :=
  (g.rules.toList.tail.mapM (Rule.text? g)).map "\n".intercalate

theorem WrittenAs.rulesText? {g : Grammar} {lines : List ProductionLine}
    (h : g.WrittenAs lines) : g.rulesText? =
      some ("\n".intercalate ((lines.flatMap productions).map Production.text)) := by
  have hTexts : g.rules.toList.tail.map (Rule.text? g) =
      ((lines.flatMap productions).map Production.text).map some := by
    rw [List.map_map, ← List.forall₂_eq_eq_eq, List.forall₂_map_left_iff,
      List.forall₂_map_right_iff]
    exact (h.rules.imp fun p rule hNames => hNames.text_eq).flip
  rw [Grammar.rulesText?, mapM_eq_some hTexts, Option.map_some]

/-- A grammar that was read from a text is read again from its rules. -/
theorem ofText_rulesText {source : String} {g : Grammar} (h : ofText source = .ok g) :
    ∃ text, g.rulesText? = some text ∧ ofText text = .ok g := by
  obtain ⟨lines, hLines, hDefine⟩ := exists_of_ofText h
  obtain ⟨hNe, hWritten⟩ := writtenAs_of_define hLines.usable hDefine
  have hProductions : lines.flatMap productions ≠ [] := by
    intro hNone
    refine hNe ((definedRules_eq_nil_iff hLines.usable).mp ?_)
    rw [definedRules, hNone, List.map_nil]
  have hPrinted := spelledBy_ofProductions hProductions hLines.printable
  refine ⟨_, hWritten.rulesText?, ?_⟩
  rw [ofText_of_spelledBy hPrinted,
    define_congr hLines.usable hPrinted.usable productions_ofProductions hDefine]
  rfl

/-- Names of signs that also stand for something else in a text. -/
def signs : String := "- -> > '#' |\n# -\n A|B -> \"x\" - | ε\n- -> >"

theorem ofText_rulesText_signs : ∃ g, ofText signs = .ok g ∧
    g.rulesText? = some "- -> > '#'\n- -> ε\nA|B -> \"x\" -\nA|B -> ε\n- -> >" ∧
    ofText "- -> > '#'\n- -> ε\nA|B -> \"x\" -\nA|B -> ε\n- -> >" = .ok g := by
  have hPrinted : (ofText signs).toOption.bind rulesText? =
      some "- -> > '#'\n- -> ε\nA|B -> \"x\" -\nA|B -> ε\n- -> >" := by decide +kernel
  cases hSigns : ofText signs with
  | error e =>
    rw [hSigns] at hPrinted
    cases hPrinted
  | ok g =>
    rw [hSigns] at hPrinted
    obtain ⟨text, hText, hRead⟩ := ofText_rulesText hSigns
    cases hText.symm.trans hPrinted
    exact ⟨g, rfl, hText, hRead⟩

end Grammar

end ShiftReduce
