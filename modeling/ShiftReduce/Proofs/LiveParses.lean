import ShiftReduce.Item.Valid
import ShiftReduce.Proofs.LiveItems

/-!
# Parsing along live items

A stack can be changed by reading a terminal that a live item expects, and by
reducing a rule that is live as a whole with the next terminal as its lookahead.
`Parses γ v n γ' v'` says that such changes lead from the stack `γ` before the
input `v` to the stack `γ'` before `v'`, and that `n` of them are reductions. There
may be several ways to go on; whether there are is a matter of the grammar, and
does not matter here.

The main result is `Yields.parses`. If a live item has `β` after its marker and the
input begins with what `β` yields, then `β` can be put on the stack, with as many
reductions as there are rules in the trees, provided the terminal after that is one
that the item expects after `β`. The induction follows the trees.
-/

namespace ShiftReduce.Grammar

/-- Live items lead from one stack and input to another by some number of
reductions. -/
inductive Parses (g : Grammar) :
    List Symbol → List Terminal → Nat → List Symbol → List Terminal → Prop
  | refl (γ : List Symbol) (v : List Terminal) : Parses g γ v 0 γ v
  | shift {γ γ' : List Symbol} {t : Terminal} {v v' : List Terminal} {n : Nat} {i : Item} :
      g.Live γ i → i.core.next g = some (.terminal t) → Parses g (.terminal t :: γ) v n γ' v' →
      Parses g γ (t :: v) n γ' v'
  | reduce {γ γ' : List Symbol} {v v' : List Terminal} {n : Nat} {r : RuleId} {rule : Rule} :
      g.rules[r]? = some rule → r ≠ augmentedRule →
      g.Live (rule.right.reverse ++ γ) ⟨⟨r, rule.right.length⟩, nextTerminal v⟩ →
      Parses g (.nonterminal rule.left :: γ) v n γ' v' →
      Parses g (rule.right.reverse ++ γ) v (n + 1) γ' v'

variable {g : Grammar} {γ γ' γ'' β ζ : List Symbol} {v v' v'' w u : List Terminal} {m n : Nat}
  {i : Item} {a : Terminal}

namespace Parses

theorem trans (h : g.Parses γ v m γ' v') (h' : g.Parses γ' v' n γ'' v'') :
    g.Parses γ v (m + n) γ'' v'' := by
  induction h with
  | refl => rwa [Nat.zero_add]
  | shift hLive hNext _ ih => exact .shift hLive hNext (ih h')
  | reduce hr h0 hLive _ ih =>
    rw [Nat.add_right_comm]
    exact .reduce hr h0 hLive (ih h')

/-- Reading does not put anything back. -/
theorem length_le (h : g.Parses γ v n γ' v') : v'.length ≤ v.length := by
  induction h with
  | refl => exact Nat.le_refl _
  | shift _ _ _ ih =>
    rw [List.length_cons]
    omega
  | reduce _ _ _ _ ih => exact ih

end Parses

/-- The terminal before which `β` is to be recognised is one that `β` and what
comes after it can begin with. -/
theorem Yields.nextTerminal_mem (h : g.Yields β w n)
    (hNext : nextTerminal v ∈ g.firstSets.ofSequenceThen ζ a) :
    nextTerminal (w ++ v) ∈ g.firstSets.ofSequenceThen (β ++ ζ) a := by
  rw [FirstSets.mem_ofSequenceThen_append]
  cases w with
  | nil => exact .inr ⟨epsilon_ofSequence_iff.mpr h.derives, hNext⟩
  | cons t w => exact .inl h.derives.mem_first

/-- A live item parses what it expects. -/
theorem Yields.parses (h : g.Yields β u n) (hLive : g.Live γ i)
    (hRest : i.core.rest g = β ++ ζ)
    (hNext : nextTerminal v ∈ g.firstSets.ofSequenceThen ζ i.lookahead) :
    g.Parses γ (u ++ v) n (β.reverse ++ γ) v := by
  induction h generalizing γ i ζ v with
  | nil => exact .refl γ v
  | terminal t _ ih =>
    have hStep := Core.next_of_rest hRest
    rw [List.reverse_cons, List.append_assoc, List.singleton_append]
    exact .shift hLive hStep (ih (hLive.advance hStep) (Core.rest_advance hRest) hNext)
  | @nonterminal r rule β u w m n hr hRight hβ ihRight ihβ =>
    have hStep := Core.next_of_rest hRest
    have hAfter := hβ.nextTerminal_mem hNext
    -- The rule is predicted with the terminal that really follows it.
    have hPredicted : (⟨⟨r, 0⟩, nextTerminal (w ++ v)⟩ : Item) ∈ g.predicts g.firstSets i :=
      (g.mem_predicts _).mpr ⟨_, _, hRest, g.mem_rulesOf.mpr ⟨rule, hr, rfl⟩, rfl, hAfter⟩
    have hRule := hLive.predict hPredicted
    have hWhole : (⟨r, 0⟩ : Core).rest g = rule.right ++ [] := by
      rw [Core.rest_mk hr, List.drop_zero, List.append_nil]
    have hMem : .nonterminal rule.left ∈ i.core.rest g := hRest ▸ List.mem_cons_self
    have hRead : g.Parses γ (u ++ (w ++ v)) m (rule.right.reverse ++ γ) (w ++ v) :=
      ihRight hRule hWhole (FirstSets.mem_ofSequenceThen_nil.mpr rfl)
    have hReduce : g.Parses (rule.right.reverse ++ γ) (w ++ v) 1 (.nonterminal rule.left :: γ)
        (w ++ v) :=
      .reduce hr (rule_ne_augmentedRule hr hMem) (hRule.read_rule hr) (.refl _ _)
    have hGoOn : g.Parses (.nonterminal rule.left :: γ) (w ++ v) n
        (β.reverse ++ .nonterminal rule.left :: γ) v :=
      ihβ (hLive.advance hStep) (Core.rest_advance hRest) hNext
    rw [List.append_assoc, List.reverse_cons, List.append_assoc, List.singleton_append]
    exact (hRead.trans hReduce).trans hGoOn

/-- A sentence is parsed from the empty stack to the start symbol. -/
theorem Yields.parses_sentence (h : g.Yields [.nonterminal g.start] w n) :
    g.Parses [] w n [.nonterminal g.start] [] := by
  have hRest : (⟨augmentedRule, 0⟩ : Core).rest g = [.nonterminal g.start] ++ [] :=
    Core.rest_mk g.augmentedRule_first 0
  have hNext : nextTerminal [] ∈ g.firstSets.ofSequenceThen [] endMarker :=
    FirstSets.mem_ofSequenceThen_nil.mpr rfl
  have hParses := h.parses .initial hRest hNext
  rwa [List.append_nil] at hParses

end ShiftReduce.Grammar
