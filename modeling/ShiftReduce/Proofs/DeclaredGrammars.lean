import ShiftReduce.Proofs.Declarations
import ShiftReduce.Proofs.Tokens

/-!
# Grammars that declarations end in

What a finished grammar keeps of the course of its declarations, and what its names
are good for. Names are pairwise distinct, so a name leads back to its symbol, and
the names of both sides of a rule lead back to the first rule with these sides
(`Grammar.exists_ruleSpelled?`). The name of the augmented start is the one name that
nobody has declared: it has the least number of primes that tells it from all others
(`exists_primed_eq`).
-/

namespace ShiftReduce

/-! ## Primes -/

theorem exists_primed_eq (names : List String) (name : String) :
    ∃ primes, 0 < primes ∧ primed names name = name.pushn '\'' primes ∧
      ∀ fewer, 0 < fewer → fewer < primes → name.pushn '\'' fewer ∈ names := by
  fun_induction primed names name with
  | case1 name hTaken ih =>
    have hPush : ∀ primes, (name.push '\'').pushn '\'' primes = name.pushn '\'' (primes + 1) := by
      intro primes
      induction primes with
      | zero => rfl
      | succ primes ih => exact congrArg (fun s => s.push '\'') ih
    obtain ⟨primes, _, hEq, hFewer⟩ := ih
    refine ⟨primes + 1, Nat.succ_pos _, hEq.trans (hPush primes), fun fewer hPos hLt => ?_⟩
    obtain ⟨less, rfl⟩ := Nat.exists_eq_succ_of_ne_zero (Nat.ne_of_gt hPos)
    rcases Nat.eq_zero_or_pos less with rfl | hLess
    · exact hTaken
    · exact hPush less ▸ hFewer less hLess (Nat.lt_of_succ_lt_succ hLt)
  | case2 name hFree =>
    refine ⟨1, Nat.one_pos, rfl, fun fewer hPos hLt => ?_⟩
    omega

/-- Only names of some length matter. -/
theorem primed_congr {names others : List String} (name : String)
    (h : ∀ other, other ≠ "" → (other ∈ names ↔ other ∈ others)) :
    primed names name = primed others name := by
  have hPush : ∀ name : String, name.push '\'' ∈ names ↔ name.push '\'' ∈ others := by
    refine fun name => h _ fun hEmpty => ?_
    have := congrArg String.length hEmpty
    simp [String.length_push] at this
  fun_induction primed names name with
  | case1 name hTaken ih =>
    rw [ih]
    conv => rhs; unfold primed
    rw [if_pos ((hPush name).mp hTaken)]
  | case2 name hFree =>
    unfold primed
    rw [if_neg (mt (hPush name).mpr hFree)]

/-! ## Symbols and rules by their names -/

namespace Grammar

variable {g : Grammar} {name : String}

theorem terminalNamed?_eq_some_iff {t : Terminal} :
    g.terminalNamed? name = some t ↔
      t ≠ endMarker ∧ g.symbolName? (.terminal t) = some name := by
  have hNodup : g.terminals.toList.Nodup := (List.nodup_append.mp g.names_distinct).1
  constructor
  · intro h
    refine ⟨Nat.ne_of_gt (declared_of_terminalNamed? h).1, ?_⟩
    unfold terminalNamed? at h
    split at h
    · next u hu =>
      split at h <;> cases h
      exact (findIdx?_eq_some_iff_of_nodup hNodup).mp hu
    · cases h
  · rintro ⟨h0, hName⟩
    exact terminalNamed?_of_getElem? hName (Nat.pos_of_ne_zero h0)

theorem nonterminalNamed?_eq_some_iff {n : Nonterminal} :
    g.nonterminalNamed? name = some n ↔ g.symbolName? (.nonterminal n) = some name :=
  findIdx?_eq_some_iff_of_nodup (List.nodup_append.mp g.names_distinct).2.1

theorem symbol_eq_of_symbolName? {s s' : Symbol} (h : g.symbolName? s = some name)
    (h' : g.symbolName? s' = some name) : s = s' := by
  obtain ⟨hTerminals, hNonterminals, hApart⟩ := List.nodup_append.mp g.names_distinct
  have hMixed : ∀ {t n : Nat}, g.terminals[t]? = some name → g.nonterminals[n]? = some name →
      False := fun ht hn =>
    hApart name (Array.mem_toList_iff.mpr (Array.mem_of_getElem? ht)) name
      (Array.mem_toList_iff.mpr (Array.mem_of_getElem? hn)) rfl
  cases s with
  | terminal t =>
    cases s' with
    | terminal u =>
      have ht := (findIdx?_eq_some_iff_of_nodup hTerminals).mpr h
      have hu := (findIdx?_eq_some_iff_of_nodup hTerminals).mpr h'
      rw [ht, Option.some_inj] at hu
      exact congrArg Symbol.terminal hu
    | nonterminal n => exact (hMixed h h').elim
  | nonterminal n =>
    cases s' with
    | terminal t => exact (hMixed h' h).elim
    | nonterminal m =>
      have hn := nonterminalNamed?_eq_some_iff.mpr h
      rw [nonterminalNamed?_eq_some_iff.mpr h', Option.some_inj] at hn
      exact congrArg Symbol.nonterminal hn.symm

theorem string_eq_of_names {α β : List Symbol} {names : List String}
    (hα : α.map g.symbolName? = names.map some) (hβ : β.map g.symbolName? = names.map some) :
    α = β := by
  induction names generalizing α β with
  | nil =>
    rw [List.map_nil, List.map_eq_nil_iff] at hα hβ
    rw [hα, hβ]
  | cons name names ih =>
    obtain ⟨s, α, rfl, hs, hα⟩ := List.map_eq_cons_iff.mp hα
    obtain ⟨s', β, rfl, hs', hβ⟩ := List.map_eq_cons_iff.mp hβ
    rw [symbol_eq_of_symbolName? hs hs', ih hα hβ]

theorem exists_symbolName? {s : Symbol} (h : s.Declared g.terminals.size g.nonterminals.size) :
    ∃ name, g.symbolName? s = some name := by
  cases s with
  | terminal t => exact ⟨_, Array.getElem?_eq_getElem h.2⟩
  | nonterminal n => exact ⟨_, Array.getElem?_eq_getElem h.2⟩

theorem exists_names {α : List Symbol}
    (h : ∀ s ∈ α, s.Declared g.terminals.size g.nonterminals.size) :
    ∃ names : List String, α.map g.symbolName? = names.map some := by
  induction α with
  | nil => exact ⟨[], rfl⟩
  | cons s α ih =>
    rw [List.forall_mem_cons] at h
    obtain ⟨name, hName⟩ := exists_symbolName? h.1
    obtain ⟨names, hNames⟩ := ih h.2
    exact ⟨name :: names, by rw [List.map_cons, hName, hNames, List.map_cons]⟩

theorem spells_iff_eq {rule other : Rule} {right : List String}
    (hRight : rule.right.map g.symbolName? = right.map some) :
    g.spells rule.left right other = true ↔ other = rule := by
  unfold spells
  rw [Bool.and_eq_true, decide_eq_true_iff, decide_eq_true_iff]
  constructor
  · rintro ⟨hLeft, hOther⟩
    have hSame : other.right = rule.right := string_eq_of_names hOther hRight
    cases other
    cases rule
    rw [Rule.mk.injEq]
    exact ⟨hLeft, hSame⟩
  · rintro rfl
    exact ⟨rfl, hRight⟩

/-- The names of both sides of a rule lead to the first rule with these sides. -/
theorem exists_ruleSpelled? {r : RuleId} {rule : Rule} (hr : g.rules[r]? = some rule) :
    ∃ left right, g.symbolName? (.nonterminal rule.left) = some left ∧
      rule.right.map g.symbolName? = right.map some ∧
      ∃ first, g.ruleSpelled? left right = some first ∧ g.rules[first]? = some rule ∧
        ∀ r', g.rules[r']? = some rule → first ≤ r' := by
  have hLeftLt := g.left_lt hr
  have hLeft : g.symbolName? (.nonterminal rule.left) = some g.nonterminals[rule.left] :=
    Array.getElem?_eq_getElem hLeftLt
  obtain ⟨right, hRight⟩ := exists_names fun s hs => g.declared_of_mem_right hr hs
  refine ⟨_, right, hLeft, hRight, ?_⟩
  have hSpells : (g.rules.findIdx? (g.spells rule.left right)).isSome := by
    rw [Array.findIdx?_isSome, Array.any_eq_true']
    exact ⟨rule, Array.mem_of_getElem? hr, (spells_iff_eq hRight).mpr rfl⟩
  obtain ⟨first, hFirst⟩ := Option.isSome_iff_exists.mp hSpells
  refine ⟨first, ?_, ?_⟩
  · unfold ruleSpelled?
    rw [nonterminalNamed?_eq_some_iff.mpr hLeft]
    exact hFirst
  · obtain ⟨hSize, hIs, hBefore⟩ := Array.findIdx?_eq_some_iff_getElem.mp hFirst
    refine ⟨?_, fun r' hr' => Nat.le_of_not_lt fun hLt => ?_⟩
    · rw [Array.getElem?_eq_getElem hSize, (spells_iff_eq hRight).mp hIs]
    · obtain ⟨hSize', hEq⟩ := Array.getElem?_eq_some_iff.mp hr'
      exact hBefore r' hLt ((spells_iff_eq hRight).mpr hEq)

end Grammar

/-! ## Finished drafts -/

/-- What a grammar is that a course of declarations ends in, and what its names are
good for. -/
structure Grammar.DeclaredBy (g : Grammar) (accepted : List Declaration) : Prop where
  terminals : g.terminals.toList = endMarkerName :: accepted.flatMap Declaration.terminals
  nonterminals : g.nonterminals.toList.tail = accepted.flatMap Declaration.nonterminals
  rules : g.rules.toList =
    ⟨augmentedStart, [.nonterminal g.start]⟩ :: accepted.flatMap Declaration.rules
  /-- The start symbol is the last one that was declared as such, or else the left-hand
  side of the first declared rule. -/
  start : some g.start = (accepted.filterMap Declaration.start?).getLast?.or
    ((accepted.flatMap Declaration.rules).head?.map (·.left))
  names_distinct : (g.terminals.toList ++ g.nonterminals.toList).Nodup
  /-- The augmented start is named after the start symbol, with the least positive
  number of primes that no other symbol has. -/
  augmentedName : ∃ name primes, g.symbolName? (.nonterminal g.start) = some name ∧
    0 < primes ∧ g.symbolName? (.nonterminal augmentedStart) = some (name.pushn '\'' primes) ∧
    ∀ fewer, 0 < fewer → fewer ≤ primes →
      (fewer = primes ↔ ∀ s, g.symbolName? s = some (name.pushn '\'' fewer) →
        s = .nonterminal augmentedStart)
  augmentedRule_iff : ∀ (r : RuleId) (rule : Rule), g.rules[r]? = some rule →
    (rule.left = augmentedStart ↔ r = augmentedRule)
  right_declared : ∀ (r : RuleId) (rule : Rule), g.rules[r]? = some rule →
    ∀ s ∈ rule.right, s.Declared g.terminals.size g.nonterminals.size
  terminalNamed : ∀ name t, g.terminalNamed? name = some t ↔
    t ≠ endMarker ∧ g.symbolName? (.terminal t) = some name
  nonterminalNamed : ∀ name n, g.nonterminalNamed? name = some n ↔
    g.symbolName? (.nonterminal n) = some name
  ruleSpelled : ∀ (r : RuleId) (rule : Rule), g.rules[r]? = some rule →
    ∃ left right, g.symbolName? (.nonterminal rule.left) = some left ∧
      rule.right.map g.symbolName? = right.map some ∧
      ∃ first, g.ruleSpelled? left right = some first ∧ g.rules[first]? = some rule ∧
        ∀ r', g.rules[r']? = some rule → first ≤ r'

namespace Draft

variable {d : Draft} {g : Grammar}

theorem finish_eq_ok_iff :
    d.finish = .ok g ↔
      ∃ start, ∃ h : d.start? = some start, d.rules ≠ #[] ∧ g = d.augment start h := by
  unfold finish
  split
  · next start h =>
    constructor
    · intro hFinish
      split at hFinish
      · cases hFinish
      · next hRules =>
        cases hFinish
        exact ⟨start, h, fun hEmpty => hRules (by rw [hEmpty]; rfl), rfl⟩
    · rintro ⟨start', h', hRules, rfl⟩
      obtain rfl : start = start' := Option.some_inj.mp (h.symm.trans h')
      rw [if_neg fun hEmpty => hRules (Array.isEmpty_iff.mp hEmpty)]
  · next h =>
    constructor
    · intro hFinish
      cases hFinish
    · rintro ⟨start, h', _⟩
      rw [h] at h'
      cases h'

theorem finish_of_no_rules (h : d.start? = none ∨ d.rules = #[]) :
    d.finish = .error .noRules := by
  unfold finish
  split
  · next start hStart =>
    rcases h with h | h
    · rw [h] at hStart
      cases hStart
    · rw [h]
      rfl
  · rfl

variable {start : Nonterminal} {h : d.start? = some start}

theorem terminals_augment :
    (d.augment start h).terminals.toList = endMarkerName :: d.terminals.toList := by
  simp [augment]

theorem rules_augment :
    (d.augment start h).rules.toList =
      ⟨augmentedStart, [.nonterminal start]⟩ :: d.rules.toList := by
  simp [augment]

/-- The name of the start symbol, after which the augmented start is named. -/
theorem exists_startName (h : d.start? = some start) :
    ∃ name, d.nonterminals[start - 1]? = some name ∧
      (d.augment start h).nonterminals.toList =
        primed (endMarkerName :: (d.terminals.toList ++ d.nonterminals.toList)) name ::
          d.nonterminals.toList := by
  have hDeclared : 0 < start ∧ start < d.nonterminals.size + 1 := start?_declared h
  have hSize : start - 1 < d.nonterminals.size :=
    Nat.sub_one_lt_of_le hDeclared.1 (Nat.le_of_lt_succ hDeclared.2)
  exact ⟨d.nonterminals[start - 1], Array.getElem?_eq_getElem hSize, by simp [augment]⟩

theorem nonterminals_augment :
    (d.augment start h).nonterminals.toList.tail = d.nonterminals.toList := by
  obtain ⟨name, _, hNames⟩ := exists_startName h
  rw [hNames, List.tail_cons]

/-- A declared name, or that of the end marker, is the name of a symbol other than
the augmented start. -/
theorem exists_symbolName?_augment {name : String}
    (hName : name ∈ endMarkerName :: (d.terminals.toList ++ d.nonterminals.toList)) :
    ∃ s, s ≠ .nonterminal augmentedStart ∧ (d.augment start h).symbolName? s = some name := by
  rw [← List.cons_append, List.mem_append, ← terminals_augment (h := h),
    ← nonterminals_augment (h := h)] at hName
  rcases hName with hName | hName
  · obtain ⟨t, ht⟩ := List.mem_iff_getElem?.mp hName
    rw [Array.getElem?_toList] at ht
    exact ⟨.terminal t, nofun, ht⟩
  · obtain ⟨n, hn⟩ := List.mem_iff_getElem?.mp hName
    rw [List.getElem?_tail, Array.getElem?_toList] at hn
    exact ⟨.nonterminal (n + 1), nofun, hn⟩

theorem exists_augmentedName :
    ∃ name primes, (d.augment start h).symbolName? (.nonterminal start) = some name ∧
      0 < primes ∧
      (d.augment start h).symbolName? (.nonterminal augmentedStart) =
        some (name.pushn '\'' primes) ∧
      ∀ fewer, 0 < fewer → fewer ≤ primes →
        (fewer = primes ↔ ∀ s, (d.augment start h).symbolName? s =
          some (name.pushn '\'' fewer) → s = .nonterminal augmentedStart) := by
  obtain ⟨name, hStart, hNames⟩ := exists_startName h
  have hStartPos : 0 < start := (start?_declared h).1
  have hName : (d.augment start h).symbolName? (.nonterminal start) = some name := by
    rw [Grammar.symbolName?, ← Array.getElem?_toList, hNames, List.getElem?_cons,
      if_neg (Nat.ne_of_gt hStartPos), Array.getElem?_toList, hStart]
  obtain ⟨primes, hPos, hEq, hFewer⟩ :=
    exists_primed_eq (endMarkerName :: (d.terminals.toList ++ d.nonterminals.toList)) name
  have hAugmented : (d.augment start h).symbolName? (.nonterminal augmentedStart) =
      some (name.pushn '\'' primes) := by
    rw [Grammar.symbolName?, ← Array.getElem?_toList, hNames, hEq]
    rfl
  refine ⟨name, primes, hName, hPos, hAugmented, fun fewer hFewerPos hLe => ?_⟩
  constructor
  · rintro rfl s hs
    exact Grammar.symbol_eq_of_symbolName? hs hAugmented
  · intro hFree
    refine Nat.le_antisymm hLe (Nat.le_of_not_lt fun hLt => ?_)
    obtain ⟨s, hNe, hs⟩ := exists_symbolName?_augment (hFewer fewer hFewerPos hLt)
    exact hNe (hFree s hs)

/-- The grammar of a draft that grew from the empty one. -/
theorem Grows.declaredBy {accepted : List (Declaration × Option Nat)}
    (hGrows : empty.Grows accepted d) (hFinish : d.finish = .ok g) :
    g.DeclaredBy (accepted.map Prod.fst) := by
  obtain ⟨start, h, _, rfl⟩ := finish_eq_ok_iff.mp hFinish
  have hRules : d.rules.toList = (accepted.map Prod.fst).flatMap Declaration.rules := by
    rw [hGrows.rules, List.flatMap_map]
    rfl
  exact {
    terminals := by
      rw [terminals_augment, hGrows.terminals, List.flatMap_map]
      rfl
    nonterminals := by
      rw [nonterminals_augment, hGrows.nonterminals, List.flatMap_map]
      rfl
    rules := by rw [rules_augment, hRules]; rfl
    start := by
      change some start = _
      rw [← h, start?, hGrows.start, ← hRules, List.filterMap_map, List.head?_eq_getElem?,
        Array.getElem?_toList]
      change (Option.or _ none).or _ = _
      rw [Option.or_none]
      rfl
    names_distinct := (d.augment start h).names_distinct
    augmentedName := exists_augmentedName
    augmentedRule_iff := by
      intro r rule hr
      constructor
      · intro hLeft
        refine Decidable.byContradiction fun h0 => ?_
        exact Nat.ne_of_gt ((d.augment start h).left_pos hr h0) hLeft
      · rintro rfl
        rw [(d.augment start h).augmentedRule_first, Option.some_inj] at hr
        rw [← hr]
    right_declared := fun r rule hr s hs => (d.augment start h).declared_of_mem_right hr hs
    terminalNamed := fun _ _ => Grammar.terminalNamed?_eq_some_iff
    nonterminalNamed := fun _ _ => Grammar.nonterminalNamed?_eq_some_iff
    ruleSpelled := fun r rule hr => Grammar.exists_ruleSpelled? hr }

end Draft

end ShiftReduce
