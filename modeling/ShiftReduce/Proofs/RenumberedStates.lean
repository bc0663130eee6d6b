import Mathlib.Data.Fintype.EquivFin
import Mathlib.Data.List.Nodup
import ShiftReduce.Proofs.Quotient
import ShiftReduce.Proofs.RenamedRuns
import ShiftReduce.Proofs.Renumbering
import ShiftReduce.Proofs.TableCells

/-!
# Renumbered states

If a grammar has the rules of another one under other numbers (`Grammar.Renumbers`), the states of
its automaton are those of the other one under other numbers, too (`Automaton.Renumbers`).

Both algorithms are alike in what matters for this. They make the item set of a state out of an
item set of the collection (`Algorithm.gather`), have every set only once, and lead each edge to
what is made of `goto` (`Automaton.Gathered`). Gathering commutes with new rule numbers, so both
automata have the same item sets up to these, in two orders, and what takes one order to the
other is the renumbering of the states (`exists_renumbers`).

What a state offers to do at a terminal depends on its items and edges only, never on their order.
So the cells that correspond to each other have the same number of conflicts
(`length_conflictsAt_eq`), although the order may decide which action is kept in them.
-/

namespace ShiftReduce

/-- Where the elements of a list go in a permutation of it. Beyond its end nothing moves. -/
theorem exists_equiv_getElem? {α : Type} {l l' : List α} (h : l.Perm l') :
    ∃ σ : Equiv.Perm Nat, ∀ i, l'[σ i]? = l[i]? := by
  classical
  have hInjective : Function.Injective fun i => (h.idxBij i).cast h.length_eq.symm :=
    (Fin.cast_injective _).comp h.idxBij_injective
  let e : Equiv.Perm (Fin l.length) :=
    Equiv.ofBijective _ (Finite.injective_iff_bijective.mp hInjective)
  refine ⟨e.extendDomain Fin.equivSubtype, fun i => ?_⟩
  by_cases hi : i < l.length
  · have hPlace : e.extendDomain Fin.equivSubtype i = h.idxBij ⟨i, hi⟩ :=
      e.extendDomain_apply_subtype Fin.equivSubtype hi
    have hSame := h.getElem_idxBij_eq_getElem ⟨i, hi⟩
    rw [hPlace, List.getElem?_eq_getElem (h.idxBij ⟨i, hi⟩).isLt, hSame,
      List.getElem?_eq_getElem hi]
  · have hPlace : e.extendDomain Fin.equivSubtype i = i :=
      e.extendDomain_apply_not_subtype Fin.equivSubtype hi
    rw [hPlace, List.getElem?_eq_none (Nat.le_of_not_lt hi),
      List.getElem?_eq_none (h.length_eq ▸ Nat.le_of_not_lt hi)]

/-! ## What both algorithms do -/

/-- The items of the state that an item set of the collection goes into. -/
def Algorithm.gather (g : Grammar) : Algorithm → ItemSet → ItemSet
  | .canonical, s => s
  | .merged, s => (Automaton.canonical g).mergedItems s.cores

namespace Automaton

/-- The item sets of the states, in order. -/
def itemSets (automaton : Automaton) : List ItemSet := automaton.states.toList.map State.items

/-- An automaton whose states are what `gather` makes of the collection. -/
structure Gathered (automaton : Automaton) (g : Grammar) (gather : ItemSet → ItemSet) :
    Prop where
  nodup : automaton.itemSets.Nodup
  mem_iff : ∀ s, s ∈ automaton.itemSets ↔ ∃ t ∈ g.collection, gather t = s
  initial : automaton.itemSets[initialState]? = some (gather (g.initialItems g.firstSets))
  edge : ∀ (q p : StateId) (X : Symbol) (s : ItemSet), s ∈ g.collection →
    automaton.itemSets[q]? = some (gather s) → (automaton.edge? q X = some p ↔
      X ∈ g.nextSymbols s ∧ automaton.itemSets[p]? = some (gather (g.goto g.firstSets s X)))

variable {automaton : Automaton} {g : Grammar} {q p : StateId} {s : ItemSet} {X : Symbol}

theorem length_itemSets (automaton : Automaton) : automaton.itemSets.length = automaton.size := by
  rw [itemSets, List.length_map, Array.length_toList, size]

theorem getElem?_itemSets_iff : automaton.itemSets[q]? = some s ↔
    ∃ state, automaton.states[q]? = some state ∧ state.items = s := by
  rw [itemSets, List.getElem?_map, Array.getElem?_toList, Option.map_eq_some_iff]

theorem exists_itemSet_of_edge? (h : automaton.edge? q X = some p) :
    ∃ s, automaton.itemSets[q]? = some s := by
  obtain ⟨state, hState, _⟩ := exists_state_of_edge? h
  exact ⟨_, getElem?_itemSets_iff.mpr ⟨state, hState, rfl⟩⟩

theorem itemSets_canonical (g : Grammar) : (canonical g).itemSets = g.collection := by
  rw [itemSets, canonical_states, List.toList_toArray, List.map_map]
  exact List.map_id _

theorem gathered_canonical (g : Grammar) :
    (canonical g).Gathered g (Algorithm.canonical.gather g) where
  nodup := by
    rw [itemSets_canonical]
    exact g.nodup_collection
  mem_iff s := by
    rw [itemSets_canonical]
    simp only [Algorithm.gather, exists_eq_right]
  initial := by
    rw [itemSets_canonical]
    exact g.getElem?_collection_zero
  edge q p X s hs hState := by
    rw [itemSets_canonical] at hState ⊢
    rw [edge?_canonical_iff hState]
    refine and_congr_right fun hX => ?_
    exact (getElem?_eq_some_iff_idxOf g.nodup_collection
      (Grammar.goto_mem_collection hs hX)).symm

theorem itemSets_merged (g : Grammar) : ((canonical g).merged g g.firstSets).itemSets =
    (canonical g).distinctCores.map (canonical g).mergedItems := by
  rw [itemSets, merged, List.toList_toArray, List.map_map]
  rfl

/-- A merged state is the only one with its item set. -/
theorem getElem?_itemSets_merged_iff (hs : s ∈ g.collection) :
    ((canonical g).merged g g.firstSets).itemSets[q]? =
      some ((canonical g).mergedItems s.cores) ↔ (canonical g).distinctCores.idxOf s.cores = q := by
  have hMem := mem_distinctCores_canonical.mpr ⟨s, hs, rfl⟩
  rw [← getElem?_eq_some_iff_idxOf (canonical g).nodup_distinctCores hMem, itemSets_merged,
    List.getElem?_map, Option.map_eq_some_iff]
  constructor
  · rintro ⟨cores, hCores, hEq⟩
    have hSame := congrArg ItemSet.cores hEq
    rw [cores_mergedItems (List.mem_of_getElem? hCores), cores_mergedItems hMem] at hSame
    exact hSame ▸ hCores
  · exact fun h => ⟨_, h, rfl⟩

theorem gathered_merged (g : Grammar) :
    ((canonical g).merged g g.firstSets).Gathered g (Algorithm.merged.gather g) where
  nodup := by
    rw [itemSets_merged]
    refine List.Nodup.map_on ?_ (canonical g).nodup_distinctCores
    intro cores hCores cores' hCores' hEq
    rw [← cores_mergedItems hCores, hEq, cores_mergedItems hCores']
  mem_iff s := by
    rw [itemSets_merged, List.mem_map]
    constructor
    · rintro ⟨cores, hCores, rfl⟩
      obtain ⟨t, ht, rfl⟩ := mem_distinctCores_canonical.mp hCores
      exact ⟨t, ht, rfl⟩
    · rintro ⟨t, ht, rfl⟩
      exact ⟨t.cores, mem_distinctCores_canonical.mpr ⟨t, ht, rfl⟩, rfl⟩
  initial := (getElem?_itemSets_merged_iff g.initialItems_mem_collection).mpr idxOf_initial_cores
  edge q p X s hs hState := by
    obtain rfl := (getElem?_itemSets_merged_iff hs).mp hState
    rw [edge?_merged_iff hs]
    refine and_congr_right fun hX => ?_
    exact (getElem?_itemSets_merged_iff (Grammar.goto_mem_collection hs hX)).symm

end Automaton

/-- Each algorithm has an automaton that is coherent, and gathered in its way. -/
theorem Algorithm.exists_gathered (algorithm : Algorithm) (g : Grammar) : ∃ automaton,
    (Construction.mk algorithm false).automaton g = .ok automaton ∧ automaton.Coherent g ∧
      automaton.Gathered g (algorithm.gather g) := by
  cases algorithm with
  | canonical =>
    exact ⟨_, rfl, Automaton.coherent_canonical g, Automaton.gathered_canonical g⟩
  | merged =>
    exact ⟨_, Automaton.merge_canonical g, Automaton.coherent_merged g,
      Automaton.gathered_merged g⟩

/-! ## The renumbering of states -/

/-- The second automaton is the first one with other numbers of its rules and states. -/
structure Automaton.Renumbers (automaton automaton' : Automaton) (ρ : RuleId → RuleId)
    (β : Equiv.Perm StateId) : Prop where
  size : automaton'.size = automaton.size
  initial : β initialState = initialState
  itemSets : ∀ q, automaton'.itemSets[β q]? = automaton.itemSets[q]?.map (ItemSet.renumber ρ)
  edge : ∀ q X, automaton'.edge? (β q) X = (automaton.edge? q X).map β

namespace Grammar.Renumbers

variable {g g' : Grammar} {ρ : RuleId → RuleId} {s t : ItemSet} {automaton automaton' : Automaton}
  (hR : g.Renumbers g' ρ)
include hR

theorem cores_renumber_inj : (s.renumber ρ).cores = (t.renumber ρ).cores ↔ s.cores = t.cores := by
  have hMem : ∀ (s : ItemSet) core, core.renumber ρ ∈ (s.renumber ρ).cores ↔ core ∈ s.cores := by
    intro s core
    rw [ItemSet.mem_cores_renumber]
    constructor
    · rintro ⟨core', hCore, hEq⟩
      exact Core.renumber_injective hR.injective hEq ▸ hCore
    · exact fun hCore => ⟨core, hCore, rfl⟩
  constructor
  · exact fun h => OrdSet.ext fun core => by rw [← hMem s, h, hMem t]
  · intro h
    refine OrdSet.ext fun core => ?_
    rw [ItemSet.mem_cores_renumber, ItemSet.mem_cores_renumber, h]

/-- Gathering commutes with the renumbering of rules. -/
theorem gather_renumber (algorithm : Algorithm) :
    algorithm.gather g' (s.renumber ρ) = (algorithm.gather g s).renumber ρ := by
  cases algorithm with
  | canonical => rfl
  | merged =>
    refine OrdSet.ext fun j => ?_
    rw [Algorithm.gather, Algorithm.gather, ItemSet.mem_renumber,
      Automaton.mem_mergedItems_canonical]
    simp only [Automaton.mem_mergedItems_canonical]
    constructor
    · rintro ⟨_, hMem, hCores, hj⟩
      obtain ⟨t, ht, rfl⟩ := hR.mem_collection_iff.mp hMem
      obtain ⟨i, hi, rfl⟩ := ItemSet.mem_renumber.mp hj
      exact ⟨i, ⟨t, ht, hR.cores_renumber_inj.mp hCores, hi⟩, rfl⟩
    · rintro ⟨i, ⟨t, ht, hCores, hi⟩, rfl⟩
      exact ⟨_, hR.mem_collection_iff.mpr ⟨t, ht, rfl⟩, hR.cores_renumber_inj.mpr hCores,
        ItemSet.mem_renumber.mpr ⟨i, hi, rfl⟩⟩

section Gathered

variable {algorithm : Algorithm} (h : automaton.Gathered g (algorithm.gather g))
  (h' : automaton'.Gathered g' (algorithm.gather g'))
include h h'

theorem perm_itemSets :
    (automaton.itemSets.map (ItemSet.renumber ρ)).Perm automaton'.itemSets := by
  have hNodup := h.nodup.map (ItemSet.renumber_injective hR.injective)
  refine (List.perm_ext_iff_of_nodup hNodup h'.nodup).mpr fun s' => ?_
  simp only [List.mem_map, h.mem_iff, h'.mem_iff, hR.mem_collection_iff]
  constructor
  · rintro ⟨_, ⟨t, ht, rfl⟩, rfl⟩
    exact ⟨_, ⟨t, ht, rfl⟩, hR.gather_renumber algorithm⟩
  · rintro ⟨_, ⟨t, ht, rfl⟩, rfl⟩
    exact ⟨_, ⟨t, ht, rfl⟩, (hR.gather_renumber algorithm).symm⟩

/-- Between states with the same items there are the same edges. -/
theorem edge?_iff {q q' p p' : StateId} {X : Symbol}
    (hq : automaton'.itemSets[q']? = automaton.itemSets[q]?.map (ItemSet.renumber ρ))
    (hp : automaton'.itemSets[p']? = automaton.itemSets[p]?.map (ItemSet.renumber ρ)) :
    automaton'.edge? q' X = some p' ↔ automaton.edge? q X = some p := by
  cases hState : automaton.itemSets[q]? with
  | none =>
    rw [hState, Option.map_none] at hq
    refine iff_of_false (fun hEdge => ?_) fun hEdge => ?_
    · obtain ⟨s, hs⟩ := Automaton.exists_itemSet_of_edge? hEdge
      cases hq.symm.trans hs
    · obtain ⟨s, hs⟩ := Automaton.exists_itemSet_of_edge? hEdge
      cases hState.symm.trans hs
  | some x =>
    obtain ⟨s, hs, rfl⟩ := (h.mem_iff x).mp (List.mem_of_getElem? hState)
    have hInvolved := involvesItem_of_mem_collection hs
    rw [hState, Option.map_some, ← hR.gather_renumber] at hq
    rw [h.edge q p X s hs hState, h'.edge q' p' X _ (hR.mem_collection_iff.mpr ⟨s, hs, rfl⟩) hq,
      hR.mem_nextSymbols_renumber hInvolved, hp, hR.goto_renumber hInvolved, hR.gather_renumber]
    refine and_congr_right fun _ => ?_
    exact (Option.map_injective (ItemSet.renumber_injective hR.injective)).eq_iff' rfl

/-- The automata of both grammars are the same but for numbers. -/
theorem exists_renumbers : ∃ β, automaton.Renumbers automaton' ρ β := by
  have hPerm := hR.perm_itemSets h h'
  obtain ⟨β, hβ⟩ := exists_equiv_getElem? hPerm
  have hItemSets : ∀ q, automaton'.itemSets[β q]? =
      automaton.itemSets[q]?.map (ItemSet.renumber ρ) :=
    fun q => (hβ q).trans List.getElem?_map
  refine ⟨β, ?_, ?_, hItemSets, fun q X => Option.ext fun p' => ?_⟩
  · have hLength := hPerm.length_eq
    rw [List.length_map, Automaton.length_itemSets, Automaton.length_itemSets] at hLength
    exact hLength.symm
  · have hFirst := hItemSets initialState
    rw [h.initial, Option.map_some, ← hR.gather_renumber, ← hR.initialItems_renumber,
      ← h'.initial] at hFirst
    obtain ⟨hLt, _⟩ := List.getElem?_eq_some_iff.mp h'.initial
    exact ((List.getElem?_inj hLt h'.nodup).mp hFirst.symm).symm
  · obtain ⟨p, rfl⟩ := β.surjective p'
    rw [hR.edge?_iff h h' (hItemSets q) (hItemSets p)]
    exact ((Option.map_injective β.injective).eq_iff' rfl).symm

end Gathered

end Grammar.Renumbers

/-! ## Actions and conflicts -/

/-- The conflicts of one cell. -/
def ParseTable.conflictsAt (table : ParseTable) (q : StateId) (t : Terminal) : List Conflict :=
  table.conflicts.filter fun c => c.state = q ∧ c.terminal = t

/-- All actions for one cell: the one that the table keeps, and those that lost. -/
def ParseTable.actionsAt (table : ParseTable) (q : StateId) (t : Terminal) : List TableAction :=
  (table.action? q t).toList ++ (table.conflictsAt q t).map Conflict.other

section Cells

variable {g g' : Grammar} {ρ : RuleId → RuleId} {β : Equiv.Perm StateId}
  {automaton automaton' : Automaton} {table table' : ParseTable} {q : StateId} {t : Terminal}
  {action : TableAction} {c : Conflict}

theorem ParseTable.mem_conflictsAt :
    c ∈ table.conflictsAt q t ↔ c ∈ table.conflicts ∧ c.state = q ∧ c.terminal = t := by
  rw [conflictsAt, List.mem_filter, decide_eq_true_iff]

theorem ParseTable.conflictsAt_eq_nil (h : table.conflicts = []) (q : StateId) (t : Terminal) :
    table.conflictsAt q t = [] := by
  rw [conflictsAt, h, List.filter_nil]

namespace ParseTable.Exact

variable (hExact : table.Exact g automaton)
include hExact

/-- A table has every action that its automaton offers, in the cell or in a conflict. -/
theorem mem_actionsAt : action ∈ table.actionsAt q t ↔ automaton.Offers g q t action := by
  rw [actionsAt, List.mem_append, Option.mem_toList, List.mem_map]
  constructor
  · rintro (hKept | ⟨c, hConflict, rfl⟩)
    · exact ((hExact.action? q t action).mp hKept).offers
    · obtain ⟨hMem, rfl, rfl⟩ := mem_conflictsAt.mp hConflict
      exact ((hExact.conflict c).mp hMem).2.1
  · intro hOffers
    cases hAction : table.action? q t with
    | none => exact absurd hOffers ((hExact.empty q t).mp hAction action)
    | some kept =>
      by_cases hEq : action = kept
      · exact .inl (congrArg some hEq.symm)
      · have hConflict := (hExact.conflict ⟨q, t, kept, action⟩).mpr ⟨hAction, hOffers, hEq⟩
        exact .inr ⟨_, mem_conflictsAt.mpr ⟨hConflict, rfl, rfl⟩, rfl⟩

/-- In one cell different conflicts are about different actions. -/
theorem nodup_actionsAt (q : StateId) (t : Terminal) : (table.actionsAt q t).Nodup := by
  have hKept : ∀ c ∈ table.conflictsAt q t, table.action? q t = some c.kept ∧ c.other ≠ c.kept := by
    intro c hc
    obtain ⟨hMem, rfl, rfl⟩ := mem_conflictsAt.mp hc
    obtain ⟨hAction, _, hNe⟩ := (hExact.conflict c).mp hMem
    exact ⟨hAction, hNe⟩
  rw [actionsAt, List.nodup_append]
  refine ⟨?_, ?_, ?_⟩
  · cases table.action? q t with
    | none => exact List.nodup_nil
    | some kept => exact List.nodup_singleton kept
  · refine (hExact.once.filter _).map_on fun c hc d hd hOther => ?_
    have hSame := (hKept c hc).1.symm.trans (hKept d hd).1
    obtain ⟨_, hState, hTerminal⟩ := mem_conflictsAt.mp hc
    obtain ⟨_, hState', hTerminal'⟩ := mem_conflictsAt.mp hd
    rw [Conflict.mk.injEq]
    exact ⟨hState.trans hState'.symm, hTerminal.trans hTerminal'.symm, Option.some.inj hSame,
      hOther⟩
  · rintro kept hAction _ hMem rfl
    obtain ⟨c, hc, rfl⟩ := List.mem_map.mp hMem
    obtain ⟨hSame, hNe⟩ := hKept c hc
    rw [Option.mem_toList.mp hAction] at hSame
    exact hNe (Option.some.inj hSame)

/-- Without conflicts a cell has the action that is offered. -/
theorem action?_eq_some_iff_offers (hConflicts : table.conflicts = []) :
    table.action? q t = some action ↔ automaton.Offers g q t action := by
  rw [← hExact.mem_actionsAt, actionsAt, conflictsAt_eq_nil hConflicts, List.map_nil,
    List.append_nil, Option.mem_toList]

end ParseTable.Exact

/-- A completion of a rule is that of the renumbered rule. -/
theorem Grammar.Renumbers.completion_rename (hR : g.Renumbers g' ρ) (f : StateId → StateId)
    (r : RuleId) (t : Terminal) : (completion r t).rename f ρ = completion (ρ r) t := by
  by_cases hAccept : r = augmentedRule ∧ t = endMarker
  · have hAccept' : ρ r = augmentedRule ∧ t = endMarker :=
      ⟨hR.eq_augmentedRule_iff.mpr hAccept.1, hAccept.2⟩
    rw [completion_eq_accept_iff.mpr hAccept, completion_eq_accept_iff.mpr hAccept']
    rfl
  · have hReduce' : ¬ (ρ r = augmentedRule ∧ t = endMarker) := by
      rwa [hR.eq_augmentedRule_iff]
    rw [completion_eq_reduce_iff.mpr ⟨rfl, hAccept⟩, completion_eq_reduce_iff.mpr ⟨rfl, hReduce'⟩]
    rfl

namespace Automaton.Renumbers

variable (hStates : automaton.Renumbers automaton' ρ β) (hR : g.Renumbers g' ρ)
  (hCoherent : automaton.Coherent g)
include hStates

/-- A renumbered state has the items of the state with other rule numbers. -/
theorem exists_state_iff {s : ItemSet} :
    (∃ state, automaton'.states[β q]? = some state ∧ state.items = s) ↔
      ∃ state, automaton.states[q]? = some state ∧ state.items.renumber ρ = s := by
  rw [← getElem?_itemSets_iff, hStates.itemSets, Option.map_eq_some_iff]
  simp only [getElem?_itemSets_iff]
  constructor
  · rintro ⟨_, ⟨state, hState, rfl⟩, hEq⟩
    exact ⟨state, hState, hEq⟩
  · rintro ⟨state, hState, hEq⟩
    exact ⟨_, ⟨state, hState, rfl⟩, hEq⟩

include hR hCoherent

/-- The state offers the renumbered actions. -/
theorem offers_iff : automaton'.Offers g' (β q) t action ↔
    ∃ action', automaton.Offers g q t action' ∧ action'.rename β ρ = action := by
  constructor
  · intro hOffers
    cases hOffers with
    | shift hEdge =>
      rw [hStates.edge, Option.map_eq_some_iff] at hEdge
      obtain ⟨p, hEdge, rfl⟩ := hEdge
      exact ⟨_, .shift hEdge, rfl⟩
    | @complete state' _ rule hState' hr' hMem =>
      obtain ⟨state, hState, hItems⟩ := hStates.exists_state_iff.mp ⟨state', hState', rfl⟩
      rw [← hItems, ItemSet.mem_renumber] at hMem
      obtain ⟨⟨⟨r, m⟩, a⟩, hItem, hEq⟩ := hMem
      cases hEq
      -- The rule of the item has no other text under its other number.
      obtain ⟨⟨rule', hr, _⟩, _⟩ := hCoherent.belongs hState _ hItem
      obtain rfl := Option.some.inj (hr'.symm.trans (hR.rule _ _ hr))
      exact ⟨_, .complete hState hr hItem, hR.completion_rename β r a⟩
  · rintro ⟨action', hOffers, rfl⟩
    cases hOffers with
    | @shift p hEdge =>
      refine .shift ?_
      rw [hStates.edge, hEdge, Option.map_some]
    | @complete state r rule hState hr hMem =>
      obtain ⟨state', hState', hItems⟩ := hStates.exists_state_iff.mpr ⟨state, hState, rfl⟩
      rw [hR.completion_rename]
      refine .complete hState' (hR.rule _ _ hr) ?_
      rw [hItems]
      exact ItemSet.mem_renumber.mpr ⟨_, hMem, rfl⟩

variable (hExact : table.Exact g automaton) (hExact' : table'.Exact g' automaton')
include hExact hExact'

/-- Corresponding cells are both empty or both have an action. -/
theorem action?_eq_none_iff : table'.action? (β q) t = none ↔ table.action? q t = none := by
  rw [hExact'.empty, hExact.empty]
  simp only [hStates.offers_iff hR hCoherent]
  constructor
  · exact fun h action hOffers => h _ ⟨action, hOffers, rfl⟩
  · rintro h _ ⟨action, hOffers, rfl⟩
    exact h action hOffers

/-- They have the same number of conflicts. -/
theorem length_conflictsAt_eq :
    (table'.conflictsAt (β q) t).length = (table.conflictsAt q t).length := by
  have hInjective := Action.rename_injective β.injective hR.injective
  have hPerm : ((table.actionsAt q t).map (Action.rename β ρ)).Perm
      (table'.actionsAt (β q) t) := by
    refine (List.perm_ext_iff_of_nodup ((hExact.nodup_actionsAt q t).map hInjective)
      (hExact'.nodup_actionsAt (β q) t)).mpr fun action => ?_
    rw [hExact'.mem_actionsAt, hStates.offers_iff hR hCoherent, List.mem_map]
    simp only [hExact.mem_actionsAt]
  have hLength := hPerm.length_eq
  rw [List.length_map, ParseTable.actionsAt, ParseTable.actionsAt, List.length_append,
    List.length_append, List.length_map, List.length_map] at hLength
  have hNone : table'.action? (β q) t = none ↔ table.action? q t = none :=
    hStates.action?_eq_none_iff hR hCoherent hExact hExact'
  cases hAction : table.action? q t with
  | none =>
    rw [hAction, hNone.mpr hAction] at hLength
    exact (Nat.add_left_cancel hLength).symm
  | some kept =>
    obtain ⟨kept', hAction'⟩ : ∃ kept', table'.action? (β q) t = some kept' := by
      refine Option.ne_none_iff_exists'.mp fun h => ?_
      cases (hNone.mp h).symm.trans hAction
    rw [hAction, hAction'] at hLength
    exact (Nat.add_left_cancel hLength).symm

/-- So a table without conflicts stays without them. -/
theorem conflicts_eq_nil (hConflicts : table.conflicts = []) : table'.conflicts = [] := by
  refine List.eq_nil_iff_forall_not_mem.mpr fun c hc => ?_
  obtain ⟨q, hq⟩ := β.surjective c.state
  have hMem : c ∈ table'.conflictsAt (β q) c.terminal :=
    ParseTable.mem_conflictsAt.mpr ⟨hc, hq.symm, rfl⟩
  have hLength : (table'.conflictsAt (β q) c.terminal).length =
      (table.conflictsAt q c.terminal).length :=
    hStates.length_conflictsAt_eq hR hCoherent hExact hExact'
  rw [ParseTable.conflictsAt_eq_nil hConflicts] at hLength
  exact List.not_mem_nil (List.length_eq_zero_iff.mp hLength ▸ hMem)

/-- Without conflicts each cell has the renumbered action. -/
theorem action?_eq (hConflicts : table.conflicts = []) (q : StateId) (t : Terminal) :
    table'.action? (β q) t = (table.action? q t).map (Action.rename β ρ) := by
  have hConflicts' := hStates.conflicts_eq_nil hR hCoherent hExact hExact' hConflicts
  refine Option.ext fun action => ?_
  rw [hExact'.action?_eq_some_iff_offers hConflicts', hStates.offers_iff hR hCoherent,
    Option.map_eq_some_iff]
  simp only [hExact.action?_eq_some_iff_offers hConflicts]

end Automaton.Renumbers

end Cells

end ShiftReduce
