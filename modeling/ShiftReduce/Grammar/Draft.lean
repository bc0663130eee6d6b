import ShiftReduce.Grammar.Basic

/-!
# Defining a grammar

A `Draft` is a grammar under construction: the symbols and rules declared so
far. A `Definition` is a course of declarations. A declaration that fails ends
the course and leaves the draft as the declarations before it made it.
`Grammar.define` augments the finished draft.
-/

namespace ShiftReduce

/-! ## Faults -/

/-- Why a declaration or a whole definition is refused. -/
inductive DefinitionError
  /-- A name is empty or has a blank in it. -/
  | malformedName (name : String)
  /-- A name has a meaning of its own. -/
  | reservedName (name : String)
  /-- A symbol of this name has been declared before. -/
  | declaredName (name : String)
  | tooManyTerminals
  | tooManyNonterminals
  | tooManyRules
  | unknownLeft
  | unknownRight
  | unknownStart
  /-- A grammar needs a rule. -/
  | noRules
  deriving DecidableEq, Repr

def DefinitionError.message : DefinitionError → String
  | .malformedName name => "Other error: incorrect symbol name: `" ++ name ++ "'"
  | .reservedName name => "Other error: reserved symbol name: `" ++ name ++ "'"
  | .declaredName name =>
    "Other error: The symbol `" ++ name ++ "' has already been declared"
  | .tooManyTerminals => "Other error: too many terminal symbols"
  | .tooManyNonterminals => "Other error: too many nonterminal symbols"
  | .tooManyRules => "Other error: too many production rules"
  | .unknownLeft => "Other error: unknown nonterminal symbol in the left-hand side"
  | .unknownRight => "Other error: unknown symbol in the right-hand side"
  | .unknownStart => "Other error: unknown start symbol"
  | .noRules => "The grammar has no production rules"

/-! ## Names -/

/-- The name with as few primes added as make it differ from all `names`, but
with one at least. Each prime leaves fewer longer names to differ from. -/
def primed (names : List String) (name : String) : String :=
  if name.push '\'' ∈ names then primed names (name.push '\'') else name.push '\''
termination_by (names.filter fun other => name.length < other.length).length
decreasing_by
  next h =>
    have hSub : (names.filter fun other => (name.push '\'').length < other.length) =
        (names.filter fun other => name.length < other.length).filter
          fun other => (name.push '\'').length < other.length := by
      rw [List.filter_filter]
      refine List.filter_congr fun other _ => ?_
      rw [Bool.eq_iff_iff]
      simp only [String.length_push, Bool.and_eq_true, decide_eq_true_iff]
      omega
    rw [hSub]
    refine Nat.lt_of_le_of_ne (List.length_filter_le _ _) fun he => ?_
    have := (List.length_filter_eq_length_iff.1 he) (name.push '\'')
      (List.mem_filter.2 ⟨h, by simp [String.length_push]⟩)
    simp at this

theorem primed_not_mem (names : List String) (name : String) : primed names name ∉ names := by
  fun_induction primed names name with
  | case1 name _ ih => exact ih
  | case2 name h => exact h

/-! ## Drafts -/

/-- The number that is never given to a terminal, nonterminal or rule, nor is
any above it. -/
def idLimit : Nat := 65535

/-- A grammar under construction. Numbers start at `1`: the augmented grammar
has a symbol and a rule of its own before each list. -/
structure Draft where
  terminals : Array String
  nonterminals : Array String
  rules : Array Rule
  start : Option Nonterminal
  names_usable : ∀ name ∈ terminals.toList ++ nonterminals.toList, UsableName name
  names_distinct : (terminals.toList ++ nonterminals.toList).Nodup
  rules_declared : ∀ rule ∈ rules, rule.Declared (terminals.size + 1) (nonterminals.size + 1)
  start_declared : ∀ n ∈ start,
    (Symbol.nonterminal n).Declared (terminals.size + 1) (nonterminals.size + 1)

/-- A course of declarations. -/
abbrev Definition := ExceptT DefinitionError (StateM Draft)

namespace Draft

def empty : Draft where
  terminals := #[]
  nonterminals := #[]
  rules := #[]
  start := none
  names_usable := by simp
  names_distinct := by simp
  rules_declared := by simp
  start_declared := by simp

/-- Why a symbol of this name cannot be declared, if it cannot. -/
def nameError? (d : Draft) (name : String) : Option DefinitionError :=
  if !isWord name then some (.malformedName name)
  else if isReservedName name then some (.reservedName name)
  else if d.terminals.contains name || d.nonterminals.contains name then
    some (.declaredName name)
  else none

theorem nameError?_eq_none_iff {d : Draft} {name : String} :
    d.nameError? name = none ↔
      UsableName name ∧ name ∉ d.terminals.toList ∧ name ∉ d.nonterminals.toList := by
  unfold nameError? UsableName
  cases isWord name <;> cases isReservedName name <;> simp

def terminal (name : String) : Definition Terminal := fun d =>
  match h : d.nameError? name with
  | some e => (.error e, d)
  | none =>
    if d.terminals.size + 1 < idLimit then
      (.ok (d.terminals.size + 1), { d with
        terminals := d.terminals.push name
        names_usable := by
          intro other ho
          have := nameError?_eq_none_iff.1 h
          simp only [Array.toList_push, List.mem_append, List.mem_singleton] at ho
          rcases ho with (ho | rfl) | ho
          · exact d.names_usable _ (List.mem_append_left _ ho)
          · exact this.1
          · exact d.names_usable _ (List.mem_append_right _ ho)
        names_distinct := by
          have := nameError?_eq_none_iff.1 h
          rw [Array.toList_push, List.append_assoc, List.singleton_append]
          refine (List.perm_middle.nodup_iff).2 (List.nodup_cons.2 ⟨?_, d.names_distinct⟩)
          simpa using this.2
        rules_declared := fun rule hr =>
          (d.rules_declared rule hr).mono (by simp) (Nat.le_refl _)
        start_declared := fun n hn =>
          (d.start_declared n hn).mono (by simp) (Nat.le_refl _) })
    else (.error .tooManyTerminals, d)

def nonterminal (name : String) : Definition Nonterminal := fun d =>
  match h : d.nameError? name with
  | some e => (.error e, d)
  | none =>
    if d.nonterminals.size + 1 < idLimit then
      (.ok (d.nonterminals.size + 1), { d with
        nonterminals := d.nonterminals.push name
        names_usable := by
          intro other ho
          have := nameError?_eq_none_iff.1 h
          simp only [Array.toList_push, List.mem_append, List.mem_singleton] at ho
          rcases ho with ho | ho | rfl
          · exact d.names_usable _ (List.mem_append_left _ ho)
          · exact d.names_usable _ (List.mem_append_right _ ho)
          · exact this.1
        names_distinct := by
          have := nameError?_eq_none_iff.1 h
          rw [Array.toList_push, ← List.append_assoc]
          refine (List.perm_append_singleton _ _).nodup_iff.2
            (List.nodup_cons.2 ⟨?_, d.names_distinct⟩)
          simpa using this.2
        rules_declared := fun rule hr =>
          (d.rules_declared rule hr).mono (Nat.le_refl _) (by simp)
        start_declared := fun n hn =>
          (d.start_declared n hn).mono (Nat.le_refl _) (by simp) })
    else (.error .tooManyNonterminals, d)

/-- Declares a rule. Rules are told apart by their numbers alone, so the same
rule may be declared again. -/
def rule (left : Nonterminal) (right : List Symbol) : Definition RuleId := fun d =>
  if hl : (Symbol.nonterminal left).Declared (d.terminals.size + 1) (d.nonterminals.size + 1) then
    if hr : ∀ s ∈ right, s.Declared (d.terminals.size + 1) (d.nonterminals.size + 1) then
      if d.rules.size + 1 < idLimit then
        (.ok (d.rules.size + 1), { d with
          rules := d.rules.push ⟨left, right⟩
          rules_declared := by
            intro rule h
            rcases Array.mem_push.1 h with h | rfl
            · exact d.rules_declared rule h
            · exact ⟨hl, hr⟩ })
      else (.error .tooManyRules, d)
    else (.error .unknownRight, d)
  else (.error .unknownLeft, d)

def startSymbol (n : Nonterminal) : Definition Unit := fun d =>
  if h : (Symbol.nonterminal n).Declared (d.terminals.size + 1) (d.nonterminals.size + 1) then
    (.ok (), { d with
      start := some n
      start_declared := fun m hm => by cases hm; exact h })
  else (.error .unknownStart, d)

/-! ## The augmented grammar -/

/-- The declared start symbol, or else the left-hand side of the first rule. -/
def start? (d : Draft) : Option Nonterminal :=
  d.start.or (d.rules[0]?.map (·.left))

theorem start?_declared {d : Draft} {n : Nonterminal} (h : d.start? = some n) :
    (Symbol.nonterminal n).Declared (d.terminals.size + 1) (d.nonterminals.size + 1) := by
  unfold start? at h
  cases hs : d.start with
  | some m =>
    rw [hs] at h
    exact d.start_declared n (by rw [hs]; simpa using h)
  | none =>
    rw [hs, Option.none_or, Option.map_eq_some_iff] at h
    obtain ⟨rule, hr, rfl⟩ := h
    exact (d.rules_declared rule (Array.mem_of_getElem? hr)).1

/-- The grammar of a draft, augmented by a start symbol of its own, which is
named after the declared one. -/
def augment (d : Draft) (start : Nonterminal) (h : d.start? = some start) : Grammar :=
  have hs : 0 < start ∧ start < d.nonterminals.size + 1 := start?_declared h
  have hsize : start - 1 < d.nonterminals.size := by grind
  let names := endMarkerName :: (d.terminals.toList ++ d.nonterminals.toList)
  let augmentedName := primed names d.nonterminals[start - 1]
  { terminals := #[endMarkerName] ++ d.terminals
    nonterminals := #[augmentedName] ++ d.nonterminals
    rules := #[⟨augmentedStart, [.nonterminal start]⟩] ++ d.rules
    start := start
    endMarker_first := Array.getElem?_append_left (by simp [endMarker])
    names_distinct := by
      have hFresh : augmentedName ∉ names := primed_not_mem _ _
      have hMarker : endMarkerName ∉ d.terminals.toList ++ d.nonterminals.toList := fun hm => by
        have := (d.names_usable _ hm).2
        simp [isReservedName] at this
      have hAll : (augmentedName :: names).Nodup :=
        List.nodup_cons.2 ⟨hFresh, List.nodup_cons.2 ⟨hMarker, d.names_distinct⟩⟩
      refine (List.Perm.nodup_iff ?_).2 hAll
      simp only [Array.toList_append, List.singleton_append, names]
      rw [← List.cons_append]
      exact List.perm_middle
    names_usable := by simpa using d.names_usable
    augmentedRule_first := Array.getElem?_append_left (by simp [augmentedRule])
    start_declared := by simpa [Symbol.Declared, Nat.add_comm] using hs
    rules_declared := by
      intro r rule h0 hr
      have h1 : 1 ≤ r := Nat.one_le_iff_ne_zero.2 h0
      rw [Array.getElem?_append_right (by simpa using h1)] at hr
      simpa [Nat.add_comm] using d.rules_declared rule (Array.mem_of_getElem? hr) }

def finish (d : Draft) : Except DefinitionError Grammar :=
  match h : d.start? with
  | some start => if d.rules.isEmpty then .error .noRules else .ok (d.augment start h)
  | none => .error .noRules

end Draft

def Grammar.define (declarations : Definition Unit) : Except DefinitionError Grammar :=
  match declarations.run.run Draft.empty with
  | (.ok (), d) => d.finish
  | (.error e, _) => .error e

end ShiftReduce
