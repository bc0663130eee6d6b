import ShiftReduce.Proofs.DeclaredLines

/-!
# Grammars that texts define

Which texts define a grammar, and which one. A text is refused for its first line that is neither
blank, nor a comment, nor a production line; if there is none, every name that is left passes the
checks of a declaration, so that the definition can only fail because there is no line at all or
because numbers run out.

* `Grammar.WrittenAs`: the grammar that lines define, by the names of its symbols.
* `Draft.Keeps.writtenAs`: what the draft becomes that the lines end in.
* `Grammar.readsText`: what reading comes to, for every text.
-/

namespace ShiftReduce

open ProductionLine

/-! ## The grammar -/

namespace Grammar

/-- Whether the two sides of a rule have these names. -/
def Names (g : Grammar) (p : Production) (rule : Rule) : Prop :=
  g.symbolName? (.nonterminal rule.left) = some p.left ∧
    rule.right.map g.symbolName? = p.right.map some

/-- What the grammar is that lines define. -/
structure WrittenAs (g : Grammar) (lines : List ProductionLine) : Prop where
  /-- One rule for each alternative, in order, behind the augmented rule. -/
  rules : List.Forall₂ g.Names (lines.flatMap productions) g.rules.toList.tail
  /-- A name is that of a nonterminal if and only if it is a left-hand side somewhere. -/
  nonterminal_iff : ∀ line ∈ lines, ∀ name ∈ line.left :: line.alternatives.flatten,
    (∃ n, g.symbolName? (.nonterminal n) = some name) ↔ ∃ other ∈ lines, other.left = name
  /-- Nonterminals are numbered by their first appearance as a left-hand side. -/
  nonterminals : g.nonterminals.toList.tail = (lines.map (·.left)).eraseDups
  /-- Terminals are numbered by their first appearance in an alternative. -/
  terminals : g.terminals.toList = endMarkerName ::
    ((lines.flatMap fun line => line.alternatives.flatten).filter
      fun name => name ∉ lines.map (·.left)).eraseDups
  start : g.symbolName? (.nonterminal g.start) = lines.head?.map (·.left)

end Grammar

namespace Draft

variable {d : Draft} {nonterminals terminals : List String} {rules : List Rule}
  {start : Nonterminal} {hStart : d.start? = some start} {name : String}

theorem Keeps.symbolName?_nonterminal (h : d.Keeps nonterminals terminals rules) (n : Nat) :
    (d.augment start hStart).symbolName? (.nonterminal (n + 1)) = nonterminals[n]? := by
  rw [Grammar.symbolName?, ← Array.getElem?_toList, ← List.getElem?_tail, nonterminals_augment,
    h.nonterminals]

theorem Keeps.symbolName?_terminal (h : d.Keeps nonterminals terminals rules) (t : Nat) :
    (d.augment start hStart).symbolName? (.terminal (t + 1)) = terminals[t]? := by
  rw [Grammar.symbolName?, ← Array.getElem?_toList, terminals_augment, List.getElem?_cons_succ,
    h.terminals]

/-- The symbol that a name is numbered as has this name. -/
theorem Keeps.symbolName?_ofName (h : d.Keeps nonterminals terminals rules)
    (hName : name ∈ nonterminals ∨ name ∈ terminals) :
    (d.augment start hStart).symbolName? (.ofName nonterminals terminals name) = some name := by
  unfold Symbol.ofName
  split
  · next hMem => rw [h.symbolName?_nonterminal, List.getElem?_idxOf hMem]
  · next hNot => rw [h.symbolName?_terminal, List.getElem?_idxOf (hName.resolve_left hNot)]

theorem Keeps.names_rule (h : d.Keeps nonterminals terminals rules) {p : Production}
    (hLeft : p.left ∈ nonterminals)
    (hRight : ∀ name ∈ p.right, name ∈ nonterminals ∨ name ∈ terminals) :
    (d.augment start hStart).Names p (p.rule nonterminals terminals) := by
  constructor
  · exact (h.symbolName?_nonterminal _).trans (List.getElem?_idxOf hLeft)
  · rw [Production.rule, List.map_map]
    exact List.map_congr_left fun name hName => h.symbolName?_ofName (hRight name hName)

end Draft

namespace ProductionLine

variable {lines : List ProductionLine}

theorem mem_leftNames_or_otherNames {p : Production} {name : String}
    (hp : p ∈ lines.flatMap productions) (hName : name ∈ p.right) :
    name ∈ leftNames lines ∨ name ∈ otherNames lines := by
  have hMem : name ∈ (lines.flatMap productions).flatMap (·.right) :=
    List.mem_flatMap.mpr ⟨p, hp, hName⟩
  have hDeclaring : name ∈ leftNames lines ∨ name ∈ declaring (leftNames lines) []
      ((lines.flatMap productions).flatMap (·.right)) := mem_declaring hMem
  rwa [declaring_productions] at hDeclaring

/-- The first rule is one of the first line. -/
theorem left_head?_productions (hUsable : ∀ line ∈ lines, line.Usable) :
    (lines.flatMap productions).head?.map (·.left) = lines.head?.map (·.left) := by
  cases lines with
  | nil => rfl
  | cons line lines =>
    have hNe := (hUsable line List.mem_cons_self).alternatives_ne_nil
    obtain ⟨right, rights, hRights⟩ := List.exists_cons_of_ne_nil hNe
    rw [List.flatMap_cons, productions, hRights]
    rfl

end ProductionLine

theorem Draft.Keeps.writtenAs {lines : List ProductionLine} {d : Draft} {start : Nonterminal}
    (h : d.Keeps (leftNames lines) (otherNames lines) (definedRules lines))
    (hUsable : ∀ line ∈ lines, line.Usable) (hStart : d.start? = some start) :
    (d.augment start hStart).WrittenAs lines where
  rules := by
    rw [rules_augment, List.tail_cons, h.rules, definedRules, List.forall₂_map_right_iff,
      List.forall₂_same]
    intro p hp
    exact h.names_rule (left_mem_leftNames hp) fun name => mem_leftNames_or_otherNames hp
  nonterminal_iff := by
    intro line hLine name hName
    rw [← mem_leftNames]
    constructor
    · rintro ⟨n, hn⟩
      -- A name in the text is one that is declared, so it is not that of the augmented start.
      have hKnown : name ∈ leftNames lines ∨ name ∈ otherNames lines := by
        rcases List.mem_cons.mp hName with rfl | hName
        · exact .inl (mem_leftNames.mpr ⟨line, hLine, rfl⟩)
        · obtain ⟨right, hRight, hName⟩ := List.mem_flatten.mp hName
          exact mem_leftNames_or_otherNames
            (List.mem_flatMap.mpr ⟨line, hLine, List.mem_map_of_mem hRight⟩) hName
      have hSame := Grammar.symbol_eq_of_symbolName? (h.symbolName?_ofName hKnown) hn
      by_contra hNot
      rw [Symbol.ofName, if_neg hNot] at hSame
      cases hSame
    · exact fun hMem => ⟨_, (h.symbolName?_nonterminal _).trans (List.getElem?_idxOf hMem)⟩
  nonterminals := by rw [nonterminals_augment, h.nonterminals, leftNames]
  terminals := by rw [terminals_augment, h.terminals, otherNames]
  start := by
    have hFirst : ((lines.flatMap productions).head?.map
        (·.rule (leftNames lines) (otherNames lines))).map (·.left) = some start := by
      rw [← List.head?_map, ← definedRules, ← h.rules, List.head?_eq_getElem?,
        Array.getElem?_toList, ← hStart, start?, h.start, Option.none_or]
    rw [← left_head?_productions hUsable]
    cases hHead : (lines.flatMap productions).head? with
    | none =>
      rw [hHead] at hFirst
      cases hFirst
    | some p =>
      rw [hHead, Option.map_some, Option.map_some, Option.some_inj] at hFirst
      subst hFirst
      exact (h.symbolName?_nonterminal _).trans
        (List.getElem?_idxOf (left_mem_leftNames (List.mem_of_mem_head? hHead)))

/-! ## What reading comes to -/

theorem ProductionLine.SpelledBy.usable {lines : List ProductionLine} {source : String}
    (h : SpelledBy lines source) : ∀ line ∈ lines, line.Usable := by
  intro line hLine
  obtain ⟨entry, _, hEntry⟩ := exists_of_forall₂ h hLine
  exact hEntry.2.usable

theorem Grammar.define_productionLines {lines : List ProductionLine}
    (hUsable : ∀ line ∈ lines, line.Usable) :
    (∃ d : Draft, d.Keeps (leftNames lines) (otherNames lines) (definedRules lines) ∧
      Grammar.define (Draft.productionLines lines) = d.finish) ∨
    ¬ WithinLimits lines ∧
      ∃ e, Grammar.define (Draft.productionLines lines) = .error e ∧
        e.Exceeds (leftNames lines).length (otherNames lines).length
          (definedRules lines).length := by
  obtain ⟨_, d, hCourse, hKeeps⟩ | ⟨e, d, hCourse, hExceeds⟩ :=
    Draft.ends_productionLines hUsable
  · refine .inl ⟨d, hKeeps, ?_⟩
    unfold Grammar.define
    rw [ExceptT.run, StateT.run, hCourse]
  · refine .inr ⟨fun hWithin => ?_, e, ?_, hExceeds⟩
    · cases e with
      | tooManyNonterminals => exact Nat.not_lt.mpr hExceeds hWithin.nonterminals
      | tooManyTerminals => exact Nat.not_lt.mpr hExceeds hWithin.terminals
      | tooManyRules =>
        rw [DefinitionError.Exceeds, definedRules, List.length_map] at hExceeds
        exact Nat.not_lt.mpr hExceeds hWithin.rules
      | _ => exact hExceeds
    · unfold Grammar.define
      rw [ExceptT.run, StateT.run, hCourse]

/-- There is a line at least if lines define a grammar, and it is the grammar of these lines. -/
theorem Grammar.writtenAs_of_define {lines : List ProductionLine}
    (hUsable : ∀ line ∈ lines, line.Usable) {g : Grammar}
    (h : Grammar.define (Draft.productionLines lines) = .ok g) :
    lines ≠ [] ∧ g.WrittenAs lines := by
  obtain ⟨d, hKeeps, hDefine⟩ | ⟨_, e, hDefine, _⟩ := Grammar.define_productionLines hUsable
  · rw [hDefine] at h
    obtain ⟨start, hStart, hRules, rfl⟩ := Draft.finish_eq_ok_iff.mp h
    refine ⟨fun hNone => hRules ?_, hKeeps.writtenAs hUsable hStart⟩
    rwa [← Array.toList_eq_nil_iff, hKeeps.rules, definedRules_eq_nil_iff hUsable]
  · rw [hDefine] at h
    cases h

theorem Draft.Keeps.exists_start {d : Draft} {nonterminals terminals : List String}
    {rules : List Rule} (h : d.Keeps nonterminals terminals rules) (hRules : rules ≠ []) :
    ∃ start, d.start? = some start := by
  obtain ⟨rule, rest, hRule⟩ := List.exists_cons_of_ne_nil (h.rules.trans_ne hRules)
  refine ⟨rule.left, ?_⟩
  rw [Draft.start?, h.start, Option.none_or, ← Array.getElem?_toList, hRule]
  rfl

theorem Draft.Keeps.withinLimits {lines : List ProductionLine} {d : Draft}
    (h : d.Keeps (leftNames lines) (otherNames lines) (definedRules lines)) :
    WithinLimits lines where
  nonterminals := by
    rw [← h.nonterminals]
    exact h.fits .nonterminal
  terminals := by
    rw [← h.terminals]
    exact h.fits .terminal
  rules := by
    rw [← List.length_map (·.rule (leftNames lines) (otherNames lines)), ← definedRules, ← h.rules]
    exact h.fits .rule

namespace Grammar

variable {source : String} {lines : List ProductionLine}

theorem ofText_of_spelledBy (h : SpelledBy lines source) :
    ofText source = (define (Draft.productionLines lines)).mapError .definition := by
  rw [ofText, readAll_eq_ok_iff.mpr h]
  rfl

theorem exists_of_ofText {g : Grammar} (h : ofText source = .ok g) :
    ∃ lines, SpelledBy lines source ∧ define (Draft.productionLines lines) = .ok g := by
  cases hRead : readAll source with
  | error e =>
    rw [ofText, hRead] at h
    cases h
  | ok lines =>
    have hLines := readAll_eq_ok_iff.mp hRead
    rw [ofText_of_spelledBy hLines] at h
    cases hDefine : define (Draft.productionLines lines) with
    | error e =>
      rw [hDefine] at h
      cases h
    | ok g' =>
      rw [hDefine] at h
      cases h
      exact ⟨lines, hLines, hDefine⟩

/-- What reading a text comes to. -/
structure ReadsText (source : String) : Prop where
  /-- The first line that may not stand in a source is reported. -/
  refuses : (∃ text ∈ sourceLines source, ¬ Admissible text) →
    ∃ before text after fault, sourceLines source = before ++ text :: after ∧
      (∀ earlier ∈ before, Admissible earlier) ∧ ¬ Admissible text ∧ Marks text fault ∧
      ofText source = .error (.line ⟨before.length + 1, String.ofList text, fault⟩)
  reads : (∀ text ∈ sourceLines source, Admissible text) →
    ∃ lines, SpelledBy lines source ∧
      (ofText source = .error (.definition .noRules) ↔ lines = []) ∧
      (lines ≠ [] → (WithinLimits lines ↔ ∃ g, ofText source = .ok g)) ∧
      ∀ g, ofText source = .ok g → g.WrittenAs lines

theorem readsText (source : String) : ReadsText source where
  refuses h := by
    obtain ⟨before, text, after, hLines, hBefore, hText⟩ := exists_first h
    obtain ⟨fault, hMarks, hRead⟩ := readAll_eq_error hLines hBefore hText
    refine ⟨before, text, after, fault, hLines, hBefore, hText, hMarks, ?_⟩
    rw [ofText, hRead]
    rfl
  reads h := by
    obtain ⟨lines, hLines⟩ := exists_spelledBy h
    refine ⟨lines, hLines, ?_⟩
    have hUsable := hLines.usable
    rw [ofText_of_spelledBy hLines]
    obtain ⟨d, hKeeps, hDefine⟩ | ⟨hNotWithin, e, hDefine, hExceeds⟩ :=
      define_productionLines hUsable <;> rw [hDefine]
    · by_cases hLines : lines = []
      · have hNoRules : d.rules = #[] := by
          rw [← Array.toList_eq_nil_iff, hKeeps.rules, definedRules_eq_nil_iff hUsable, hLines]
        rw [Draft.finish_of_no_rules (.inr hNoRules)]
        exact ⟨iff_of_true rfl hLines, absurd hLines, nofun⟩
      · obtain ⟨start, hStart⟩ :=
          hKeeps.exists_start (mt (definedRules_eq_nil_iff hUsable).mp hLines)
        have hFinish : d.finish = .ok (d.augment start hStart) := by
          refine Draft.finish_eq_ok_iff.mpr ⟨start, hStart, fun hNoRules => hLines ?_, rfl⟩
          rw [← definedRules_eq_nil_iff hUsable, ← hKeeps.rules, hNoRules]
        rw [hFinish]
        refine ⟨iff_of_false nofun hLines, fun _ => ?_, fun g hg => ?_⟩
        · exact iff_of_true hKeeps.withinLimits ⟨_, rfl⟩
        · cases hg
          exact hKeeps.writtenAs hUsable hStart
    · have hLines : lines ≠ [] := by
        rintro rfl
        exact hNotWithin ⟨by decide, by decide, by decide⟩
      have hNoRules : e ≠ .noRules := by
        rintro rfl
        exact hExceeds
      refine ⟨iff_of_false ?_ hLines, fun _ => iff_of_false hNotWithin nofun, nofun⟩
      intro hError
      cases hError
      exact hNoRules rfl

end Grammar

end ShiftReduce
