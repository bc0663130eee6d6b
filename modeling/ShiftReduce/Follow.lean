import ShiftReduce.First

/-!
# FOLLOW sets

`Follow(N)` holds the terminals that can stand directly after `N`. What follows
`N` in a rule `X → α N β` is what `β` begins with; and if `β` is nullable,
whatever follows `X` follows `N` too, so `N` passes to `X`. The end marker
follows the augmented start.
-/

namespace ShiftReduce

/-- What stands after each occurrence of a nonterminal in a sequence. -/
def after (n : Nonterminal) : List Symbol → List (List Symbol)
  | [] => []
  | s :: rest => if s = .nonterminal n then rest :: after n rest else after n rest

theorem mem_after {n : Nonterminal} {symbols rest : List Symbol} :
    rest ∈ after n symbols ↔ ∃ front, symbols = front ++ .nonterminal n :: rest := by
  induction symbols with
  | nil => simp [after]
  | cons s symbols ih =>
    constructor
    · intro h
      rw [after] at h
      have hTail : rest ∈ after n symbols →
          ∃ front, s :: symbols = front ++ .nonterminal n :: rest := fun h => by
        obtain ⟨front, rfl⟩ := ih.1 h
        exact ⟨s :: front, rfl⟩
      split at h
      · next hs =>
        rcases List.mem_cons.1 h with rfl | h
        · exact ⟨[], by rw [hs]; rfl⟩
        · exact hTail h
      · exact hTail h
    · rintro ⟨front, hf⟩
      rw [after]
      cases front with
      | nil =>
        obtain ⟨rfl, rfl⟩ := List.cons.inj hf
        simp
      | cons a front =>
        rw [List.cons_append, List.cons.injEq] at hf
        have := ih.2 ⟨front, hf.2⟩
        split
        · exact List.mem_cons_of_mem _ this
        · exact this

namespace Grammar

variable (g : Grammar) (F : FirstSets)

/-- The occurrences of a nonterminal on the right of rules: the left-hand side
and what stands after the occurrence. -/
def occurrences (n : Nonterminal) : List (Nonterminal × List Symbol) :=
  g.rules.toList.flatMap fun rule => (after n rule.right).map fun rest => (rule.left, rest)

/-- The nonterminals whose followers follow a nonterminal at the end of one of
their rules. -/
def passesTo (n : Nonterminal) : List Nonterminal :=
  ((g.occurrences n).filter fun o => (F.ofSequence o.2).epsilon).map fun o => o.1

def leftSides : List Nonterminal := g.rules.toList.map fun rule => rule.left

theorem passesTo_subset (n : Nonterminal) : g.passesTo F n ⊆ g.leftSides := by
  intro m hm
  obtain ⟨o, ho, rfl⟩ := List.mem_map.1 hm
  obtain ⟨rule, hr, ho⟩ := List.mem_flatMap.1 (List.mem_filter.1 ho).1
  obtain ⟨rest, _, rfl⟩ := List.mem_map.1 ho
  exact List.mem_map_of_mem hr

/-- All nonterminals whose followers follow the given one. -/
def ascents (n : Nonterminal) : List Nonterminal :=
  reachable (g.passesTo F) (AtMost.of_list (u := n :: g.leftSides) fun _ h => h)
    (fun a _ _ hb => List.mem_cons_of_mem _ (g.passesTo_subset F a hb))
    [n] (by simp)

/-- What follows a nonterminal by its own occurrences. -/
def nearFollowers (n : Nonterminal) : List Terminal :=
  (if n = augmentedStart then [endMarker] else []) ++
    (g.occurrences n).flatMap fun o => (F.ofSequence o.2).terminals.toList

def followSet (n : Nonterminal) : OrdSet Terminal :=
  OrdSet.ofList ((g.ascents F n).flatMap (g.nearFollowers F))

end Grammar

/-- The FOLLOW sets of nonterminals, each at the position of its number. -/
structure FollowSets where
  sets : Array (OrdSet Terminal)
  deriving DecidableEq

def Grammar.followSets (g : Grammar) (F : FirstSets) : FollowSets :=
  ⟨(Array.range g.nonterminals.size).map (g.followSet F)⟩

def FollowSets.nonterminal? (follow : FollowSets) (n : Nonterminal) : Option (OrdSet Terminal) :=
  follow.sets[n]?

end ShiftReduce
