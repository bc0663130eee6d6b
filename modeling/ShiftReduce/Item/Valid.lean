import ShiftReduce.Derivation
import ShiftReduce.Item.Closure

/-!
# Valid items

What an item says about the input. An item is valid after `γ` if some rightmost
derivation uses its rule at the place where the marker is reached by `γ`, with
the lookahead as the next terminal, or the end marker at the end of the input.
The strings after which some item is valid are the viable prefixes.
-/

namespace ShiftReduce

/-- The next terminal, which is the end marker after the last one. -/
def nextTerminal (w : List Terminal) : Terminal := w.headD endMarker

/-- Whether an item is valid after `γ`. -/
def Item.ValidAfter (g : Grammar) (γ : List Symbol) (i : Item) : Prop :=
  ∃ rs front rule w, g.rules[i.core.rule]? = some rule ∧ i.core.marker ≤ rule.right.length ∧
    g.Rightmost rs [.nonterminal augmentedStart]
      (front ++ .nonterminal rule.left :: terminalString w) ∧
    γ = front ++ rule.right.take i.core.marker ∧ i.lookahead = nextTerminal w

def Grammar.ViablePrefix (g : Grammar) (γ : List Symbol) : Prop := ∃ i : Item, i.ValidAfter g γ

/-- The item that a parse starts with is valid before anything is read. -/
theorem Grammar.initialItem_validAfter (g : Grammar) : initialItem.ValidAfter g [] :=
  ⟨[], [], _, [], g.augmentedRule_first, Nat.zero_le _, .refl _, rfl, rfl⟩

end ShiftReduce
