import Mathlib.Data.List.Induction
import ShiftReduce.Proofs.TableRows
import ShiftReduce.Table.Writing

/-!
# Tables that are written in place

A table that is written cell by cell in one pass is the table that takes the first candidate of
each cell and compares all candidates with it (`ParseTable.written_eq`). The invariant of the pass
is `Sheet.of`: after some candidates of a state, the row has the first one of these for each
terminal, and the conflicts are those among them. Writing one more candidate adds it to the list
of candidates (`Sheet.writeAction_of`), since what is first among them stays first.

A symbol has one edge only. Were there two edges for a nonterminal, the second would take the place
of the first.
-/

namespace ShiftReduce

/-! ## One more candidate -/

section Candidates

variable (id : StateId) (candidates : List (Terminal × TableAction))
  (entry : Terminal × TableAction)

theorem keepFirst_concat : keepFirst (candidates ++ [entry]) =
    keepFirst candidates ++ if (candidates.lookup entry.1).isSome then [] else [entry] := by
  induction candidates using keepFirst_induction with
  | nil => rfl
  | cons u action rest ih =>
    rw [List.cons_append, keepFirst_cons, keepFirst_cons, List.filter_append, List.lookup_cons]
    by_cases hEq : entry.1 = u
    · rw [hEq, beq_self_eq_true, List.filter_cons_of_neg (by simp [hEq])]
      simp
    · rw [beq_eq_false_iff_ne.mpr hEq, List.filter_cons_of_pos (by simp [hEq]), List.filter_nil, ih,
        lookup_filter_of_ne hEq, List.cons_append]

/-- The conflict of an entry with the first candidate for its terminal. -/
def collision? : Option Conflict :=
  (candidates.lookup entry.1).bind fun kept =>
    if kept = entry.2 then none else some ⟨id, entry.1, kept, entry.2⟩

theorem collision?_eq_some_iff {conflict : Conflict} :
    collision? id candidates entry = some conflict ↔
      conflict.state = id ∧ conflict.terminal = entry.1 ∧ conflict.other = entry.2 ∧
        candidates.lookup entry.1 = some conflict.kept ∧ conflict.kept ≠ entry.2 := by
  rw [collision?, Option.bind_eq_some_iff]
  constructor
  · rintro ⟨kept, hKept, hConflict⟩
    rw [Option.ite_none_left_eq_some] at hConflict
    obtain ⟨hNe, hConflict⟩ := hConflict
    cases hConflict
    exact ⟨rfl, rfl, rfl, hKept, hNe⟩
  · rintro ⟨hId, hTerminal, hOther, hKept, hNe⟩
    refine ⟨conflict.kept, hKept, ?_⟩
    rw [if_neg hNe, ← hId, ← hTerminal, ← hOther]

/-- The conflicts of candidates with those that come before them. -/
def collisions : List Conflict := candidates.filterMap (collision? id candidates)

theorem collisions_concat : collisions id (candidates ++ [entry]) = collisions id candidates ++
    ((candidates.lookup entry.1).elim [] fun kept =>
      if kept = entry.2 then [] else [⟨id, entry.1, kept, entry.2⟩]) := by
  obtain ⟨t, action⟩ := entry
  rw [collisions, List.filterMap_append]
  congr 1
  · -- The earlier candidates have a first one among themselves.
    refine List.filterMap_congr fun earlier hMem => ?_
    obtain ⟨kept, hKept⟩ := exists_lookup_of_mem hMem
    rw [collision?, collision?, List.lookup_append, hKept, Option.some_or]
  · rw [List.filterMap_cons, List.filterMap_nil, collision?, List.lookup_append]
    cases candidates.lookup t with
    | none => simp
    | some kept =>
      by_cases hEq : kept = action
      · simp [hEq]
      · simp [hEq]

end Candidates

/-! ## What has been written -/

namespace Sheet

/-- What is written after some candidates of a state, with given targets, where there were some
conflicts already. -/
def of (id : StateId) (candidates : List (Terminal × TableAction))
    (gotos : List (Nonterminal × StateId)) (conflicts : List Conflict) : Sheet :=
  ⟨⟨keepFirst candidates, gotos⟩, conflicts ++ collisions id candidates⟩

variable {id : StateId} {candidates : List (Terminal × TableAction)}
  {gotos : List (Nonterminal × StateId)} {conflicts : List Conflict}

theorem writeAction_of (entry : Terminal × TableAction) :
    (of id candidates gotos conflicts).writeAction id entry =
      of id (candidates ++ [entry]) gotos conflicts := by
  rw [of, of, writeAction, keepFirst_concat, collisions_concat, lookup_keepFirst]
  cases candidates.lookup entry.1 with
  | none => simp
  | some kept =>
    by_cases hEq : kept = entry.2
    · simp [hEq]
    · simp [hEq]

theorem writeTarget_of (entry : Nonterminal × StateId) (hNew : entry.1 ∉ gotos.map Prod.fst) :
    (of id candidates gotos conflicts).writeTarget entry =
      of id candidates (gotos ++ [entry]) conflicts := by
  have hNone : (gotos.any fun earlier => earlier.1 = entry.1) = false := by
    rw [List.any_eq_false]
    intro earlier hMem hEq
    exact hNew (of_decide_eq_true hEq ▸ List.mem_map_of_mem hMem)
  rw [of, of, writeTarget, hNone]
  rfl

theorem foldl_writeItem (g : Grammar) (items : List Item) :
    items.foldl (fun sheet i => sheet.writeItem id g i) (of id candidates gotos conflicts) =
      of id (candidates ++ (items.filter fun i => i.core.isComplete g).map fun i =>
        (i.lookahead, completion i.core.rule i.lookahead)) gotos conflicts := by
  induction items generalizing candidates with
  | nil => simp
  | cons i items ih =>
    rw [List.foldl_cons, writeItem]
    by_cases hComplete : i.core.isComplete g = true
    · rw [if_pos hComplete, writeAction_of, ih, List.append_assoc]
      simp [hComplete]
    · rw [if_neg hComplete, ih]
      simp [hComplete]

end Sheet

namespace State

variable (g : Grammar) (state : State) (id : StateId) (conflicts : List Conflict)

/-- A nonterminal with a target has an edge. -/
theorem nonterminal_mem_of_mem_targets {n : Nonterminal}
    (h : n ∈ state.targets.map Prod.fst) : .nonterminal n ∈ state.edges.map Prod.fst := by
  obtain ⟨⟨m, p⟩, hMem, rfl⟩ := List.mem_map.mp h
  obtain ⟨⟨X, p'⟩, hEdge, hEq⟩ := List.mem_filterMap.mp hMem
  cases X with
  | terminal t => cases hEq
  | nonterminal m' =>
    cases hEq
    exact List.mem_map.mpr ⟨_, hEdge, rfl⟩

/-- Edges are written as shifts and targets, in their order. -/
theorem foldl_writeEdge (items : ItemSet) (edges : List (Symbol × StateId))
    (hNodup : (edges.map Prod.fst).Nodup) :
    edges.foldl (fun sheet edge => sheet.writeEdge id edge) ⟨⟨[], []⟩, conflicts⟩ =
      Sheet.of id (State.mk items edges).shifts (State.mk items edges).targets conflicts := by
  induction edges using List.reverseRecOn with
  | nil => simp [Sheet.of, shifts, targets, collisions, keepFirst]
  | append_singleton edges edge ih =>
    rw [List.map_append, List.nodup_append] at hNodup
    obtain ⟨hEdges, _, hNew⟩ := hNodup
    rw [List.foldl_append, ih hEdges, List.foldl_cons, List.foldl_nil]
    obtain ⟨X, p⟩ := edge
    cases X with
    | terminal t =>
      rw [Sheet.writeEdge, Sheet.writeAction_of]
      simp [shifts, targets, Symbol.terminal?]
    | nonterminal n =>
      have hAbsent : n ∉ (State.mk items edges).targets.map Prod.fst := fun hMem =>
        hNew _ (nonterminal_mem_of_mem_targets ⟨items, edges⟩ hMem) _ (by simp) rfl
      rw [Sheet.writeEdge, Sheet.writeTarget_of _ hAbsent]
      simp [shifts, targets, Symbol.terminal?]

theorem conflicts_eq : state.conflicts g id = collisions id (state.candidates g) := by
  refine List.filterMap_congr fun entry _ => ?_
  dsimp only [row]
  rw [lookup_keepFirst, collision?]

theorem write_eq (hNodup : (state.edges.map Prod.fst).Nodup) :
    state.write g id conflicts = ⟨state.row g, conflicts ++ state.conflicts g id⟩ := by
  rw [write, foldl_writeEdge id conflicts state.items state.edges hNodup, Sheet.foldl_writeItem,
    conflicts_eq]
  rfl

end State

namespace ParseTable

variable {g : Grammar} {automaton : Automaton}

theorem foldl_write (states : List (State × StateId)) (rows : Array Row)
    (conflicts : List Conflict)
    (hNodup : ∀ entry ∈ states, (entry.1.edges.map Prod.fst).Nodup) :
    states.foldl (fun table (state, id) =>
        let sheet := state.write g id table.2
        (table.1.push sheet.row, sheet.conflicts)) (rows, conflicts) =
      (rows ++ (states.map fun entry => entry.1.row g).toArray,
        conflicts ++ states.flatMap fun (state, id) => state.conflicts g id) := by
  induction states generalizing rows conflicts with
  | nil => simp
  | cons entry states ih =>
    obtain ⟨state, id⟩ := entry
    rw [List.forall_mem_cons] at hNodup
    rw [List.foldl_cons]
    dsimp only
    rw [state.write_eq g id conflicts hNodup.1, ih _ _ hNodup.2]
    simp

/-- Writing cell by cell gives the table of the automaton. -/
theorem written_eq
    (hNodup : ∀ state ∈ automaton.states.toList, (state.edges.map Prod.fst).Nodup) :
    written g automaton = ofAutomaton g automaton := by
  have hStates : ∀ entry ∈ automaton.states.toList.zipIdx,
      (entry.1.edges.map Prod.fst).Nodup := by
    intro entry hMem
    exact hNodup _ (List.mem_of_getElem? (List.mem_zipIdx_iff_getElem?.mp hMem))
  have hRows : (automaton.states.toList.zipIdx.map fun entry => entry.1.row g).toArray =
      automaton.states.map fun state => state.row g := by
    have hFst := List.zipIdx_map_fst 0 automaton.states.toList
    have hEq := congrArg (List.map fun state : State => state.row g) hFst
    rw [List.map_map] at hEq
    refine (congrArg List.toArray hEq).trans ?_
    rw [← Array.toList_map, Array.toArray_toList]
  rw [written, foldl_write _ _ _ hStates, hRows]
  simp [ofAutomaton]

end ParseTable

end ShiftReduce
