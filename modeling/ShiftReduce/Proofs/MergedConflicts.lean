import ShiftReduce.Proofs.Quotient
import ShiftReduce.Proofs.StackPath

/-!
# Conflicts under merging

A cell has a conflict if its state offers two actions there. The states that go into one merged
state have the same cores, so they shift the same terminals and complete the same rules; only
the lookaheads at which they complete them differ, and the merged state has all of these. Hence
merging affects the two kinds of conflicts differently.

* The conflicts between shift and reduce are those of the canonical table
  (`Quotient.shiftReduce_mem_conflicts_iff`): the state that had the lookahead of the reduction
  shifted the terminal as well.
* The conflicts between reductions are kept (`Quotient.exists_conflict`), but there may be new
  ones, of reductions that come from different states.

Which actions a table records for a conflict depends on the order of the candidates. A shift is
always the first of them, so in a conflict between shift and reduce it is the action kept.
-/

namespace ShiftReduce

theorem Conflict.kind_eq_reduceReduce {conflict : Conflict} (h : conflict.kind ≠ .shiftReduce) :
    conflict.kind = .reduceReduce := by
  cases hKind : conflict.kind with
  | shiftReduce => exact absurd hKind h
  | reduceReduce => rfl

/-! ## The conflicts of one table -/

section OneTable

variable {g : Grammar} {automaton : Automaton} {q p : StateId} {state : State} {t : Terminal}
  {r : RuleId} {a a' : TableAction} {conflict : Conflict}

/-- Two different candidates for one cell give some conflict, although its actions may be
others. -/
theorem ParseTable.exists_conflict_of_candidates (hState : automaton.states[q]? = some state)
    (hMem : (t, a) ∈ state.candidates g) (hMem' : (t, a') ∈ state.candidates g) (hNe : a ≠ a') :
    ∃ kept other, (⟨q, t, kept, other⟩ : Conflict) ∈ (ofAutomaton g automaton).conflicts := by
  obtain ⟨kept, hKept⟩ := exists_lookup_of_mem hMem
  by_cases hEq : kept = a
  · exact ⟨kept, a', mem_conflicts_iff.mpr ⟨state, hState, hKept, hMem', hEq ▸ hNe⟩⟩
  · exact ⟨kept, a, mem_conflicts_iff.mpr ⟨state, hState, hKept, hMem, hEq⟩⟩

/-- Where the terminal of a conflict can be shifted, the table keeps the shift. -/
theorem ParseTable.kept_eq_shift (h : conflict ∈ (ofAutomaton g automaton).conflicts)
    (hEdge : automaton.edge? conflict.state (.terminal conflict.terminal) = some p) :
    conflict.kept = .shift p := by
  obtain ⟨state, hState, hKept, _⟩ := mem_conflicts_iff.mp h
  rw [Automaton.edge?_of_state hState] at hEdge
  rw [State.lookup_candidates_of_edge? hEdge] at hKept
  exact (Option.some.inj hKept).symm

namespace Automaton.Coherent

/-- A conflict is one between shift and reduce if its terminal can be shifted at all. -/
theorem kind_eq_shiftReduce_iff (hCoherent : automaton.Coherent g)
    (h : conflict ∈ (ParseTable.ofAutomaton g automaton).conflicts) :
    conflict.kind = .shiftReduce ↔
      ∃ p, automaton.edge? conflict.state (.terminal conflict.terminal) = some p := by
  obtain ⟨state, hState, hKept, hOther, _⟩ := ParseTable.mem_conflicts_iff.mp h
  have hEdge : ∀ {a : TableAction}, (conflict.terminal, a) ∈ state.candidates g →
      a.isShift = true →
        ∃ p, automaton.edge? conflict.state (.terminal conflict.terminal) = some p := by
    intro a hMem hShift
    rcases State.mem_candidates.mp hMem with ⟨p, hEdge, _⟩ | ⟨core, _, _, rfl⟩
    · exact ⟨p, (hCoherent.edge?_eq_some_iff hState).mpr hEdge⟩
    · unfold completion at hShift
      split at hShift <;> cases hShift
  constructor
  · intro hKind
    by_cases hShift : conflict.kept.isShift = true
    · exact hEdge (mem_of_lookup hKept) hShift
    · apply hEdge hOther
      simpa [Conflict.kind, hShift] using hKind
  · rintro ⟨p, hEdge⟩
    simp [Conflict.kind, ParseTable.kept_eq_shift h hEdge, Action.isShift]

theorem shiftReduce_mem_conflicts_iff (hCoherent : automaton.Coherent g) :
    (⟨q, t, .shift p, .reduce r⟩ : Conflict) ∈ (ParseTable.ofAutomaton g automaton).conflicts ↔
      automaton.edge? q (.terminal t) = some p ∧ ∃ (state : State) (core : Core),
        automaton.states[q]? = some state ∧ ⟨core, t⟩ ∈ state.items ∧ core.isComplete g = true ∧
          core.rule = r := by
  rw [ParseTable.mem_conflicts_iff]
  constructor
  · rintro ⟨state, hState, hKept, hOther, _⟩
    rcases State.mem_candidates.mp (mem_of_lookup hKept) with ⟨_, hEdge, hShift⟩ | ⟨_, _, _, hShift⟩
    · cases hShift
      rcases State.mem_candidates.mp hOther with ⟨_, _, hReduce⟩ | ⟨core, hItem, hComplete, hReduce⟩
      · cases hReduce
      · exact ⟨(hCoherent.edge?_eq_some_iff hState).mpr hEdge, state, core, hState, hItem,
          hComplete, (completion_eq_reduce_iff.mp hReduce.symm).1⟩
    · exact absurd hShift.symm completion_ne_shift
  · rintro ⟨hEdge, state, core, hState, hItem, hComplete, rfl⟩
    have hEnd : t ≠ endMarker :=
      hCoherent.edge_ne_endMarker hState ((hCoherent.edge?_eq_some_iff hState).mp hEdge)
    have hReduce : completion core.rule t = .reduce core.rule :=
      completion_eq_reduce_iff.mpr ⟨rfl, fun h => hEnd h.2⟩
    rw [edge?_of_state hState] at hEdge
    refine ⟨state, hState, State.lookup_candidates_of_edge? hEdge, ?_, by simp⟩
    exact State.mem_candidates.mpr (.inr ⟨core, hItem, hComplete, hReduce.symm⟩)

/-- What a table records of a conflict between shift and reduce. -/
theorem exists_of_shiftReduce (hCoherent : automaton.Coherent g)
    (h : conflict ∈ (ParseTable.ofAutomaton g automaton).conflicts)
    (hKind : conflict.kind = .shiftReduce) :
    ∃ p r, conflict = ⟨conflict.state, conflict.terminal, .shift p, .reduce r⟩ := by
  obtain ⟨p, hEdge?⟩ := (hCoherent.kind_eq_shiftReduce_iff h).mp hKind
  obtain ⟨state, hState, _, hOther, hNe⟩ := ParseTable.mem_conflicts_iff.mp h
  have hShift := ParseTable.kept_eq_shift h hEdge?
  have hEnd := hCoherent.edge_ne_endMarker hState ((hCoherent.edge?_eq_some_iff hState).mp hEdge?)
  rcases State.mem_candidates.mp hOther with ⟨p', hEdge', hOther⟩ | ⟨core, _, _, hOther⟩
  · have hSame := (hCoherent.edge?_eq_some_iff hState).mpr hEdge'
    rw [hEdge?, Option.some_inj] at hSame
    exact absurd (hShift.trans (hSame ▸ hOther.symm)) hNe
  · have hReduce : conflict.other = .reduce core.rule :=
      hOther.trans (completion_eq_reduce_iff.mpr ⟨rfl, fun h => hEnd h.2⟩)
    exact ⟨p, core.rule, by rw [← hShift, ← hReduce]⟩

/-- Both actions of a conflict between reductions are completions. -/
theorem exists_of_not_shiftReduce (hCoherent : automaton.Coherent g)
    (hState : automaton.states[q]? = some state)
    (hEdge : ∀ p, automaton.edge? q (.terminal t) ≠ some p) (hMem : (t, a) ∈ state.candidates g) :
    ∃ core : Core, ⟨core, t⟩ ∈ state.items ∧ core.isComplete g = true ∧
      a = completion core.rule t := by
  rcases State.mem_candidates.mp hMem with ⟨p, hp, _⟩ | hCompletion
  · exact absurd ((hCoherent.edge?_eq_some_iff hState).mpr hp) (hEdge p)
  · exact hCompletion

end Automaton.Coherent

end OneTable

/-! ## Both tables -/

/-- What merging does to the conflicts of a table, where `into` lists the states that its states
go into. -/
structure ParseTable.MergesConflicts (table merged : ParseTable) (into : List StateId) : Prop where
  /-- Every conflict is one of the merged table, in the state that its state goes into. -/
  image : ∀ conflict ∈ table.conflicts, ∃ conflict' ∈ merged.conflicts,
    into[conflict.state]? = some conflict'.state ∧ conflict'.terminal = conflict.terminal ∧
      conflict'.kind = conflict.kind
  /-- A conflict of the merged table between shift and reduce was there before, with the same
  reduction. -/
  preimage : ∀ conflict ∈ merged.conflicts, conflict.kind = .shiftReduce →
    ∃ (q p n : StateId) (r : RuleId), conflict.kept = .shift n ∧ conflict.other = .reduce r ∧
      into[q]? = some conflict.state ∧ into[p]? = some n ∧
      (⟨q, conflict.terminal, .shift p, .reduce r⟩ : Conflict) ∈ table.conflicts
  free : merged.conflicts = [] → table.conflicts = []
  /-- The conflicts in cells that had none are between reductions. -/
  introduced : ∀ conflict ∈ merged.conflicts,
    (∀ old ∈ table.conflicts, into[old.state]? = some conflict.state →
      old.terminal ≠ conflict.terminal) → conflict.kind = .reduceReduce

section Quotient

variable {g : Grammar} {automaton merged : Automaton} {into : List StateId} {q m n : StateId}
  {s t : State} {b : Terminal} {r : RuleId} {conflict : Conflict}

namespace Automaton.Quotient

/-- Every state goes into some state. -/
theorem exists_into (hQuotient : automaton.Quotient merged into)
    (hs : automaton.states[q]? = some s) :
    ∃ (m : StateId) (t : State), into[q]? = some m ∧ merged.states[m]? = some t := by
  have hLt : q < into.length :=
    hQuotient.length_eq.symm ▸ (Array.getElem?_eq_some_iff.mp hs).1
  have hSize : into[q] < merged.size := (hQuotient.mem_iff _).mp (List.getElem_mem hLt)
  exact ⟨into[q], merged.states[into[q]], List.getElem?_eq_getElem hLt,
    Array.getElem?_eq_getElem hSize⟩

theorem shiftReduce_mem_conflicts_iff (hQuotient : automaton.Quotient merged into)
    (hCoherent : automaton.Coherent g) (hMerged : merged.Coherent g) :
    (⟨m, b, .shift n, .reduce r⟩ : Conflict) ∈ (ParseTable.ofAutomaton g merged).conflicts ↔
      ∃ q p, into[q]? = some m ∧ into[p]? = some n ∧
        (⟨q, b, .shift p, .reduce r⟩ : Conflict) ∈
          (ParseTable.ofAutomaton g automaton).conflicts := by
  simp only [hMerged.shiftReduce_mem_conflicts_iff, hCoherent.shiftReduce_mem_conflicts_iff]
  constructor
  · rintro ⟨hEdge, t, core, ht, hItem, hComplete⟩
    obtain ⟨q, s, hq, hs, hItem⟩ := (hQuotient.mem_items_iff m t ht _).mp hItem
    obtain ⟨p, hp⟩ := (hQuotient.exists_edge_iff q m _ hq).mp ⟨n, hEdge⟩
    obtain ⟨n', hn, hEdge'⟩ := hQuotient.edge q m _ p hq hp
    rw [hEdge, Option.some_inj] at hEdge'
    exact ⟨q, p, hq, hEdge' ▸ hn, hp, s, core, hs, hItem, hComplete⟩
  · rintro ⟨q, p, hq, hn, hp, s, core, hs, hItem, hComplete⟩
    obtain ⟨m', t, hm, ht⟩ := hQuotient.exists_into hs
    obtain rfl : m' = m := Option.some.inj (hm.symm.trans hq)
    obtain ⟨n', hn', hEdge⟩ := hQuotient.edge q m' _ p hq hp
    obtain rfl : n' = n := Option.some.inj (hn'.symm.trans hn)
    have hItem' := (hQuotient.mem_items_iff m' t ht _).mpr ⟨q, s, hq, hs, hItem⟩
    exact ⟨hEdge, t, core, ht, hItem', hComplete⟩

/-- No conflict is hidden: the state that its state goes into has one for the same terminal, and
of the same kind. -/
theorem exists_conflict (hQuotient : automaton.Quotient merged into)
    (hCoherent : automaton.Coherent g) (hMerged : merged.Coherent g)
    (h : conflict ∈ (ParseTable.ofAutomaton g automaton).conflicts) :
    ∃ conflict' ∈ (ParseTable.ofAutomaton g merged).conflicts,
      into[conflict.state]? = some conflict'.state ∧ conflict'.terminal = conflict.terminal ∧
        conflict'.kind = conflict.kind := by
  obtain ⟨s, hs, hKept, hOther, hNe⟩ := ParseTable.mem_conflicts_iff.mp h
  obtain ⟨m, t, hm, ht⟩ := hQuotient.exists_into hs
  by_cases hKind : conflict.kind = .shiftReduce
  · obtain ⟨p, r, hConflict⟩ := hCoherent.exists_of_shiftReduce h hKind
    rw [hConflict] at h
    obtain ⟨hEdge, _⟩ := hCoherent.shiftReduce_mem_conflicts_iff.mp h
    obtain ⟨n, hn, _⟩ := hQuotient.edge _ m _ p hm hEdge
    refine ⟨⟨m, conflict.terminal, .shift n, .reduce r⟩, ?_, hm, rfl, hKind.symm⟩
    exact (hQuotient.shiftReduce_mem_conflicts_iff hCoherent hMerged).mpr ⟨_, p, hm, hn, h⟩
  · have hEdge : ∀ p, automaton.edge? conflict.state (.terminal conflict.terminal) ≠ some p :=
      fun p hp => hKind ((hCoherent.kind_eq_shiftReduce_iff h).mpr ⟨p, hp⟩)
    have hCandidate : ∀ {a : TableAction}, (conflict.terminal, a) ∈ s.candidates g →
        (conflict.terminal, a) ∈ t.candidates g := by
      intro a hMem
      obtain ⟨core, hItem, hComplete, rfl⟩ := hCoherent.exists_of_not_shiftReduce hs hEdge hMem
      have hItem' := (hQuotient.mem_items_iff m t ht _).mpr ⟨_, s, hm, hs, hItem⟩
      exact State.mem_candidates.mpr (.inr ⟨core, hItem', hComplete, rfl⟩)
    obtain ⟨kept, other, hConflict⟩ := ParseTable.exists_conflict_of_candidates ht
      (hCandidate (mem_of_lookup hKept)) (hCandidate hOther) hNe
    refine ⟨_, hConflict, hm, rfl, ?_⟩
    -- there is no edge for the terminal in the merged state either
    have hKind' : Conflict.kind ⟨m, conflict.terminal, kept, other⟩ ≠ .shiftReduce := by
      intro hShift
      obtain ⟨p, hp⟩ := (hQuotient.exists_edge_iff _ m _ hm).mp
        ((hMerged.kind_eq_shiftReduce_iff hConflict).mp hShift)
      exact hEdge p hp
    rw [Conflict.kind_eq_reduceReduce hKind, Conflict.kind_eq_reduceReduce hKind']

/-- A conflict of the merged table between shift and reduce was there before. -/
theorem exists_old_conflict (hQuotient : automaton.Quotient merged into)
    (hCoherent : automaton.Coherent g) (hMerged : merged.Coherent g)
    (h : conflict ∈ (ParseTable.ofAutomaton g merged).conflicts)
    (hKind : conflict.kind = .shiftReduce) :
    ∃ (q p n : StateId) (r : RuleId), conflict.kept = .shift n ∧ conflict.other = .reduce r ∧
      into[q]? = some conflict.state ∧ into[p]? = some n ∧
      (⟨q, conflict.terminal, .shift p, .reduce r⟩ : Conflict) ∈
        (ParseTable.ofAutomaton g automaton).conflicts := by
  obtain ⟨n, r, hConflict⟩ := hMerged.exists_of_shiftReduce h hKind
  rw [hConflict] at h ⊢
  obtain ⟨q, p, hq, hp, hOld⟩ := (hQuotient.shiftReduce_mem_conflicts_iff hCoherent hMerged).mp h
  exact ⟨q, p, n, r, rfl, rfl, hq, hp, hOld⟩

theorem mergesConflicts (hQuotient : automaton.Quotient merged into)
    (hCoherent : automaton.Coherent g) (hMerged : merged.Coherent g) :
    (ParseTable.ofAutomaton g automaton).MergesConflicts
      (ParseTable.ofAutomaton g merged) into where
  image _ h := hQuotient.exists_conflict hCoherent hMerged h
  preimage _ h hKind := hQuotient.exists_old_conflict hCoherent hMerged h hKind
  free hFree := by
    apply List.eq_nil_iff_forall_not_mem.mpr
    intro conflict h
    obtain ⟨conflict', h', _⟩ := hQuotient.exists_conflict hCoherent hMerged h
    simp [hFree] at h'
  introduced conflict h hNew := by
    apply Conflict.kind_eq_reduceReduce
    intro hKind
    obtain ⟨q, p, n, r, _, _, hq, _, hOld⟩ :=
      hQuotient.exists_old_conflict hCoherent hMerged h hKind
    exact hNew _ hOld hq rfl

end Automaton.Quotient

end Quotient

/-- Merging the states of the canonical automaton hides no conflict, and the conflicts that it
introduces are between reductions. -/
theorem Construction.merging_conflicts (g : Grammar) :
    ∃ (merged : Automaton) (into : List StateId) (table mergedTable : ParseTable),
      (Construction.mk .merged false).automaton g = .ok merged ∧ merged.mergeMap? = some into ∧
      (Construction.mk .canonical false).generate g = .ok table ∧
      (Construction.mk .merged false).generate g = .ok mergedTable ∧
      table.MergesConflicts mergedTable into := by
  have hAutomaton : (Construction.mk .merged false).automaton g =
      .ok ((Automaton.canonical g).merged g g.firstSets) := Automaton.merge_canonical g
  have hCoherent := Automaton.coherent_canonical g
  have hMerged := Automaton.coherent_merged g
  exact ⟨_, _, _, _, hAutomaton, rfl, generate_of_coherent rfl hCoherent,
    generate_of_coherent hAutomaton hMerged,
    (Automaton.quotient_merged g).mergesConflicts hCoherent hMerged⟩

end ShiftReduce
