import Mathlib.Logic.Relation
import ShiftReduce.Follow
import ShiftReduce.Item.Closure

/-!
# What the searches find

A search finds an element exactly if some sequence of steps leads to it
(`mem_reachable`). This is how the beginnings of a symbol, the nonterminals whose
followers follow a nonterminal, and the closure of an item set are known from here on.
-/

namespace ShiftReduce

/-- Some sequence of `next` steps leads from the first element to the second. -/
abbrev Reaches {α : Type} (next : α → List α) : α → α → Prop :=
  Relation.ReflTransGen fun a b => b ∈ next a

/-- The search finds exactly what `next` leads to. -/
theorem mem_reachable {α : Type} [DecidableEq α] {next : α → List α} {n : Nat} {P : α → Prop}
    {bound : AtMost n P} {closed : ∀ a, P a → ∀ b ∈ next a, P b} {start : List α}
    {within : ∀ a ∈ start, P a} {b : α} :
    b ∈ reachable next bound closed start within ↔ ∃ a ∈ start, Reaches next a b := by
  constructor
  · apply forall_mem_reachable (Q := fun b => ∃ a ∈ start, Reaches next a b)
    · exact fun a ha => ⟨a, ha, .refl⟩
    · rintro c ⟨a, ha, hac⟩ d hd
      exact ⟨a, ha, hac.tail hd⟩
  · rintro ⟨a, ha, hab⟩
    induction hab with
    | refl => exact mem_reachable_of_mem ha
    | tail _ hNext ih => exact mem_reachable_of_mem_next ih hNext

namespace Grammar

variable (g : Grammar) (F : FirstSets)

theorem mem_beginnings {nullable : OrdSet Nonterminal} {s b : Symbol} :
    b ∈ g.beginnings nullable s ↔ Reaches (g.leadsTo nullable) s b := by
  simp [beginnings, mem_reachable]

theorem mem_ascents {n m : Nonterminal} :
    m ∈ g.ascents F n ↔ Reaches (g.passesTo F) n m := by
  simp [ascents, mem_reachable]

theorem mem_closure {s : ItemSet} {j : Item} :
    j ∈ g.closure F s ↔ ∃ i ∈ s, Reaches (g.predicts F) i j := by
  rw [closure, OrdSet.mem_ofList]
  exact mem_reachable

end Grammar

end ShiftReduce
