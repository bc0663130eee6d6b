import ShiftReduce.Grammar.Basic
import ShiftReduce.Reachable

/-!
# FIRST sets

`First(X)` holds the terminals that can begin a string derived from `X`, and
says whether `X` derives the empty string.

Nullable nonterminals are found by rounds over the rules. Given them, a
nonterminal `N` leads to every symbol `Y` of a rule `N → α Y β` with nullable
`α`, and the terminals of `First(N)` are those that this leads to in the end.
-/

namespace ShiftReduce

/-! ## Nullable nonterminals -/

/-- Whether a rule derives the empty string if all `known` nonterminals do. -/
def Rule.vanishes (known : OrdSet Nonterminal) (rule : Rule) : Bool :=
  rule.right.all fun
    | .terminal _ => false
    | .nonterminal n => decide (n ∈ known)

def vanishing (known : OrdSet Nonterminal) (pending : List Rule) : List Rule :=
  pending.filter fun rule => rule.vanishes known

/-- The rules among `pending` that are not known to derive the empty string. -/
def lasting (known : OrdSet Nonterminal) (pending : List Rule) : List Rule :=
  pending.filter fun rule => !rule.vanishes known

theorem length_lasting_lt {known : OrdSet Nonterminal} {pending : List Rule}
    (h : vanishing known pending ≠ []) : (lasting known pending).length < pending.length := by
  have hSplit := pending.length_eq_countP_add_countP fun rule => rule.vanishes known
  simp only [List.countP_eq_length_filter, Bool.not_eq_true, Bool.decide_eq_false] at hSplit
  have hPos := List.length_pos_iff.2 h
  unfold vanishing at hPos
  unfold lasting
  omega

/-- Adds the left-hand sides of `pending` rules to the `known` nullable
nonterminals, until none of these rules vanishes. -/
def nullableFrom (known : OrdSet Nonterminal) (pending : List Rule) : OrdSet Nonterminal :=
  if vanishing known pending = [] then known
  else
    nullableFrom (known ∪ OrdSet.ofList ((vanishing known pending).map fun rule => rule.left))
      (lasting known pending)
termination_by pending.length
decreasing_by exact length_lasting_lt ‹_›

/-- The nonterminals that derive the empty string. -/
def Grammar.nullable (g : Grammar) : OrdSet Nonterminal := nullableFrom ∅ g.rules.toList

/-! ## What a nonterminal begins with -/

/-- The symbols of a sequence that only nullable nonterminals precede. -/
def beginners (nullable : OrdSet Nonterminal) : List Symbol → List Symbol
  | [] => []
  | .terminal t :: _ => [.terminal t]
  | .nonterminal n :: rest =>
    .nonterminal n :: if n ∈ nullable then beginners nullable rest else []

theorem beginners_subset (nullable : OrdSet Nonterminal) (symbols : List Symbol) :
    beginners nullable symbols ⊆ symbols := by
  fun_induction beginners nullable symbols with
  | case1 => exact List.Subset.refl _
  | case2 t rest => simp
  | case3 n rest ih =>
    refine List.cons_subset_cons _ ?_
    split
    · exact ih
    · exact List.nil_subset _

namespace Grammar

variable (g : Grammar)

def usedSymbols : List Symbol := g.rules.toList.flatMap fun rule => rule.right

theorem mem_usedSymbols {s : Symbol} :
    s ∈ g.usedSymbols ↔ ∃ rule ∈ g.rules, s ∈ rule.right := by
  simp [usedSymbols]

/-- The symbols that a symbol's rules can begin with. -/
def leadsTo (nullable : OrdSet Nonterminal) : Symbol → List Symbol
  | .terminal _ => []
  | .nonterminal n =>
    (g.rules.toList.filter fun rule => rule.left = n).flatMap fun rule =>
      beginners nullable rule.right

theorem leadsTo_subset (nullable : OrdSet Nonterminal) (s : Symbol) :
    g.leadsTo nullable s ⊆ g.usedSymbols := by
  intro b hb
  cases s with
  | terminal t => exact absurd hb List.not_mem_nil
  | nonterminal n =>
    obtain ⟨rule, hr, hb⟩ := List.mem_flatMap.1 hb
    exact List.mem_flatMap.2 ⟨rule, (List.mem_filter.1 hr).1, beginners_subset _ _ hb⟩

def beginnings (nullable : OrdSet Nonterminal) (s : Symbol) : List Symbol :=
  reachable (g.leadsTo nullable) (AtMost.of_list (u := s :: g.usedSymbols) fun _ h => h)
    (fun a _ _ hb => List.mem_cons_of_mem _ (g.leadsTo_subset nullable a hb))
    [s] (by simp)

theorem beginnings_subset (nullable : OrdSet Nonterminal) (s : Symbol) :
    g.beginnings nullable s ⊆ s :: g.usedSymbols := by
  refine forall_mem_reachable (by simp) fun a _ b hb => ?_
  exact List.mem_cons_of_mem _ (g.leadsTo_subset nullable a hb)

end Grammar

/-! ## The sets -/

/-- A FIRST set: terminals, and whether the empty string is derived. -/
structure FirstSet where
  terminals : OrdSet Terminal
  epsilon : Bool
  deriving DecidableEq

/-- The FIRST sets of nonterminals, each at the position of its number. -/
structure FirstSets where
  sets : Array FirstSet
  deriving DecidableEq

def Symbol.terminal? : Symbol → Option Terminal
  | .terminal t => some t
  | .nonterminal _ => none

theorem Symbol.terminal?_eq_some_iff {s : Symbol} {t : Terminal} :
    s.terminal? = some t ↔ s = .terminal t := by
  cases s <;> simp [terminal?]

def Grammar.firstSet (g : Grammar) (nullable : OrdSet Nonterminal) (n : Nonterminal) : FirstSet where
  terminals := OrdSet.ofList ((g.beginnings nullable (.nonterminal n)).filterMap Symbol.terminal?)
  epsilon := decide (n ∈ nullable)

def Grammar.firstSets (g : Grammar) : FirstSets :=
  let nullable := g.nullable
  ⟨(Array.range g.nonterminals.size).map (g.firstSet nullable)⟩

namespace FirstSets

variable (F : FirstSets)

def nonterminal? (n : Nonterminal) : Option FirstSet := F.sets[n]?

/-- The FIRST set of a symbol. It is empty for an unknown nonterminal. -/
def ofSymbol : Symbol → FirstSet
  | .terminal t => ⟨OrdSet.singleton t, false⟩
  | .nonterminal n => (F.nonterminal? n).getD ⟨∅, false⟩

def isNullable (s : Symbol) : Bool := (F.ofSymbol s).epsilon

/-- The FIRST set of a sequence: that of its first symbol, and as long as the
symbols are nullable, those of the symbols after it. -/
def ofSequence : List Symbol → FirstSet
  | [] => ⟨∅, true⟩
  | s :: rest =>
    let first := F.ofSymbol s
    if first.epsilon then
      let others := ofSequence rest
      ⟨first.terminals ∪ others.terminals, others.epsilon⟩
    else ⟨first.terminals, false⟩

/-- The terminals that can begin a string derived from a sequence that
`lookahead` follows. -/
def ofSequenceThen (symbols : List Symbol) (lookahead : Terminal) : OrdSet Terminal :=
  let first := F.ofSequence symbols
  if first.epsilon then first.terminals.insert lookahead else first.terminals

def usedTerminals : List Terminal :=
  F.sets.toList.flatMap fun first => first.terminals.toList

variable {F}

theorem mem_ofSymbol {s : Symbol} {t : Terminal} (h : t ∈ (F.ofSymbol s).terminals) :
    t ∈ F.usedTerminals ∨ s = .terminal t := by
  cases s with
  | terminal u => exact .inr (by rw [OrdSet.mem_singleton.1 h])
  | nonterminal n =>
    refine .inl ?_
    cases hn : F.sets[n]? with
    | none => simp [ofSymbol, nonterminal?, hn] at h
    | some first =>
      refine List.mem_flatMap.2 ⟨first, ?_, ?_⟩
      · exact Array.mem_toList_iff.2 (Array.mem_of_getElem? hn)
      · simpa [ofSymbol, nonterminal?, hn] using h

theorem mem_ofSequence {symbols : List Symbol} {t : Terminal}
    (h : t ∈ (F.ofSequence symbols).terminals) :
    t ∈ F.usedTerminals ∨ Symbol.terminal t ∈ symbols := by
  induction symbols with
  | nil => exact absurd h OrdSet.not_mem_empty
  | cons s rest ih =>
    have hs : t ∈ (F.ofSymbol s).terminals →
        t ∈ F.usedTerminals ∨ Symbol.terminal t ∈ s :: rest := fun h =>
      (mem_ofSymbol h).imp_right fun hs => by rw [hs]; exact List.mem_cons_self
    rw [ofSequence] at h
    dsimp only at h
    split at h
    · rcases OrdSet.mem_union.1 h with h | h
      · exact hs h
      · exact (ih h).imp_right (List.mem_cons_of_mem _)
    · exact hs h

theorem mem_ofSequenceThen {symbols : List Symbol} {lookahead t : Terminal}
    (h : t ∈ F.ofSequenceThen symbols lookahead) :
    t = lookahead ∨ t ∈ F.usedTerminals ∨ Symbol.terminal t ∈ symbols := by
  unfold ofSequenceThen at h
  dsimp only at h
  split at h
  · exact (OrdSet.mem_insert.1 h).imp_right mem_ofSequence
  · exact .inr (mem_ofSequence h)

end FirstSets

/-- The FIRST sets of a grammar hold its own terminals only. -/
theorem Grammar.lt_of_mem_usedTerminals (g : Grammar) {t : Terminal}
    (h : t ∈ g.firstSets.usedTerminals) : t < g.terminals.size := by
  obtain ⟨first, hf, ht⟩ := List.mem_flatMap.1 h
  simp only [firstSets, Array.toList_map, List.mem_map] at hf
  obtain ⟨n, _, rfl⟩ := hf
  obtain ⟨s, hs, hst⟩ := List.mem_filterMap.1 (OrdSet.mem_ofList.1 ht)
  rw [Symbol.terminal?_eq_some_iff] at hst
  subst hst
  rcases List.mem_cons.1 (g.beginnings_subset _ _ hs) with h | hUsed
  · cases h
  · obtain ⟨rule, hr, hm⟩ := g.mem_usedSymbols.1 hUsed
    obtain ⟨r, hr⟩ := Array.mem_iff_getElem?.1 hr
    exact (g.declared_of_mem_right hr hm).2

end ShiftReduce
