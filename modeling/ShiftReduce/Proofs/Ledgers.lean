import ShiftReduce.Grammar.Ledger
import ShiftReduce.Proofs.DeclaredGrammars

/-!
# Courses of calls

The ledger of a draft and the draft itself answer alike. A call leads from the ledger
of a draft to that of the draft after the declaration (`Call.make_ledger`), as long as
the keys have room for the numbers, which they have from the empty draft on
(`Draft.Fits`). So a ledger that calls have led to is the ledger of some draft, and
what is known of drafts can be read off it: keys count the records, a call that fails
changes nothing, and the grammar that a ledger ends in is one that its declarations
define.
-/

namespace ShiftReduce

/-! ## Numbered registers -/

namespace Register

variable {α : Type} {first : Nat} {values : List α} {key : Key}

theorem numbered_append (first : Nat) (values others : List α) :
    numbered first (values ++ others) =
      numbered first values ++ numbered (first + values.length) others := by
  induction values generalizing first with
  | nil => rfl
  | cons value values ih =>
    rw [List.cons_append, numbered, ih, numbered, List.length_cons, Nat.add_assoc,
      Nat.add_comm 1, List.cons_append]

theorem map_value_numbered (first : Nat) (values : List α) :
    (numbered first values).map (·.2.value) = values := by
  induction values generalizing first with
  | nil => rfl
  | cons value values ih => rw [numbered, List.map_cons, ih]

theorem ofNat_eq_iff {n : Nat} (h : n < 65536) : UInt16.ofNat n = key ↔ n = key.toNat := by
  rw [← UInt16.toNat_inj, UInt16.toNat_ofNat_of_lt' h]

theorem contains_numbered (h : first + values.length ≤ 65536) :
    (numbered first values).contains key = true ↔
      first ≤ key.toNat ∧ key.toNat < first + values.length := by
  induction values generalizing first with
  | nil =>
    have hNil : (numbered first ([] : List α)).contains key = false := rfl
    rw [hNil, List.length_nil]
    simp only [Bool.false_eq_true, false_iff]
    omega
  | cons value values ih =>
    rw [List.length_cons] at h ⊢
    have hCons : (numbered first (value :: values)).contains key =
        (UInt16.ofNat first == key || (numbered (first + 1) values).contains key) := rfl
    rw [hCons, Bool.or_eq_true, beq_iff_eq, ofNat_eq_iff (by omega), ih (by omega)]
    omega

/-- A key that is not there comes last. -/
theorem put_of_not_contains {entries : Register α} {record : Record α}
    (h : entries.contains key = false) : entries.put key record = entries ++ [(key, record)] := by
  induction entries with
  | nil => rfl
  | cons entry entries ih =>
    obtain ⟨hEntry, hEntries⟩ := Bool.or_eq_false_iff.mp h
    rw [put, if_neg (beq_eq_false_iff_ne.mp hEntry), ih hEntries, List.cons_append]

theorem put_numbered (first : Nat) (values : List α) (h : first + values.length < 65536)
    (value : α) :
    (numbered first values).put (.ofNat (first + values.length))
        ⟨.ofNat (first + values.length), value⟩ = numbered first (values ++ [value]) := by
  rw [put_of_not_contains, numbered_append]
  · rfl
  · rw [Bool.eq_false_iff, Ne, contains_numbered (Nat.le_of_lt h),
      UInt16.toNat_ofNat_of_lt' h]
    omega

/-- The next value goes to the key that counts those before it. -/
theorem put_next {n : Nat} (first : Nat) (values : List α) (value : α)
    (hLength : first + values.length = n + 1) (hRoom : n + 1 < idLimit) :
    (numbered first values).put (.ofNat (n + 1)) ⟨.ofNat (n + 1), value⟩ =
      numbered first (values ++ [value]) := by
  have hLimit : idLimit = 65535 := rfl
  rw [← hLength]
  exact put_numbered first values (by omega) value

theorem extend_numbered (first : Nat) (values others : List α)
    (h : first + values.length + others.length ≤ 65536) :
    (numbered first values).extend (numbered (first + values.length) others) =
      numbered first (values ++ others) := by
  induction others generalizing values with
  | nil => rw [List.append_nil]; rfl
  | cons value others ih =>
    rw [List.length_cons] at h
    have hLength : first + values.length + 1 = first + (values ++ [value]).length := by
      rw [List.length_append, List.length_singleton, Nat.add_assoc]
    rw [extend, numbered, List.foldl_cons, put_numbered _ _ (by omega), hLength]
    refine (ih (values ++ [value]) (by omega)).trans ?_
    rw [List.append_assoc, List.singleton_append]

theorem lookup_numbered (first : Nat) (h : first + values.length ≤ 65536) {i : Nat} {value : α}
    (hValue : values[i]? = some value) :
    (numbered first values).lookup (.ofNat (first + i)) =
      some ⟨.ofNat (first + i), value⟩ := by
  induction values generalizing first i with
  | nil => cases hValue
  | cons head values ih =>
    rw [List.length_cons] at h
    cases i with
    | zero =>
      cases hValue
      exact List.lookup_cons_self
    | succ i =>
      have hi : i < values.length :=
        Nat.lt_of_succ_lt_succ (List.getElem?_eq_some_iff.mp hValue).1
      have hNe : (UInt16.ofNat (first + (i + 1)) == UInt16.ofNat first) = false := by
        rw [beq_eq_false_iff_ne, Ne, ofNat_eq_iff (by omega),
          UInt16.toNat_ofNat_of_lt' (show first < 65536 by omega)]
        omega
      rw [numbered, List.lookup_cons, hNe, ← Nat.add_assoc, Nat.add_right_comm first i 1]
      exact ih (first + 1) (by omega) hValue

/-- Keys count the records, and a record carries its key. -/
theorem key_of_getElem? (first : Nat) (h : first + values.length ≤ 65536) {i : Nat}
    {entry : Key × Record α} (hEntry : (numbered first values)[i]? = some entry) :
    entry.1.toNat = first + i ∧ entry.2.id = entry.1 ∧ values[i]? = some entry.2.value := by
  induction values generalizing first i with
  | nil => cases hEntry
  | cons value values ih =>
    rw [List.length_cons] at h
    cases i with
    | zero =>
      cases hEntry
      exact ⟨UInt16.toNat_ofNat_of_lt' (show first < 65536 by omega), rfl, rfl⟩
    | succ i =>
      obtain ⟨hKey, hId, hValue⟩ := ih (first + 1) (by omega) hEntry
      exact ⟨by omega, hId, hValue⟩

end Register

/-! ## One call -/

namespace Bookkeeping

variable {α β : Type}

theorem bind_apply (course : Bookkeeping α) (next : α → Bookkeeping β) (l : Ledger) :
    (course >>= next) l = match course l with
      | (.ok a, l') => next a l'
      | (.error e, l') => (.error e, l') := by
  simp only [bind, ExceptT.bind, ExceptT.mk, StateT.bind]
  rcases course l with ⟨_ | a, l'⟩ <;> rfl

theorem map_apply (f : α → β) (course : Bookkeeping α) (l : Ledger) :
    (f <$> course : Bookkeeping β) l = ((course l).1.map f, (course l).2) := by
  simp only [Functor.map, ExceptT.map, ExceptT.mk, bind, StateT.bind]
  rcases course l with ⟨_ | a, l'⟩ <;> rfl

theorem get_apply (l : Ledger) : (get : Bookkeeping Ledger) l = (.ok l, l) := rfl

theorem modify_apply (f : Ledger → Ledger) (l : Ledger) :
    (modify f : Bookkeeping PUnit) l = (.ok ⟨⟩, f l) := rfl

theorem pure_apply (a : α) (l : Ledger) : (pure a : Bookkeeping α) l = (.ok a, l) := rfl

end Bookkeeping

namespace Ledger

open Bookkeeping

theorem require_apply (condition : Bool) (fault : DefinitionError) (l : Ledger) :
    require condition fault l = (if condition then .ok () else .error fault, l) := by
  cases condition <;> rfl

theorem following_of_lt {n : Nat} (h : n < idLimit) (fault : DefinitionError) (l : Ledger) :
    following (.ofNat n) fault l = (.ok (.ofNat (n + 1)), l) := by
  have hLimit : idLimit = 65535 := rfl
  have hNe : UInt16.ofNat n ≠ 65535 := by
    rw [Ne, Register.ofNat_eq_iff (by omega)]
    exact Nat.ne_of_lt h
  unfold following Key.next?
  rw [if_neg hNe, UInt16.ofNat_add]
  rfl

/-- The last key has none after it. -/
theorem following_of_not_lt {n : Nat} (hFits : n < idLimit) (h : ¬ n + 1 < idLimit)
    (fault : DefinitionError) (l : Ledger) :
    following (.ofNat (n + 1)) fault l = (.error fault, l) := by
  have hLast : n + 1 = idLimit := by omega
  rw [hLast]
  rfl

end Ledger

namespace Draft

open Bookkeeping

variable {d : Draft}

theorem names_ledger (d : Draft) : d.ledger.names =
    (endMarkerName :: d.terminals.toList) ++ ("" :: d.nonterminals.toList) := by
  simp only [Ledger.names, ledger, Register.map_value_numbered]

theorem verifyName_ledger (d : Draft) (name : String) :
    Ledger.verifyName name d.ledger =
      ((d.nameError? name).elim (.ok ()) .error, d.ledger) := by
  have hNames : isWord name = true → isReservedName name = false →
      d.ledger.names.contains name =
        (d.terminals.contains name || d.nonterminals.contains name) := by
    intro hWord hReserved
    have hEmpty : name ≠ "" := by rintro rfl; cases hWord
    have hEnd : name ≠ endMarkerName := by rintro rfl; cases hReserved
    rw [names_ledger, Bool.eq_iff_iff]
    simp [hEmpty, hEnd]
  unfold Ledger.verifyName nameError?
  simp only [bind_apply, get_apply, Ledger.require_apply]
  cases hWord : isWord name with
  | false => rfl
  | true =>
    cases hReserved : isReservedName name with
    | true => rfl
    | false =>
      simp only [if_true, Bool.not_false, hNames hWord hReserved]
      cases d.terminals.contains name || d.nonterminals.contains name <;> rfl

theorem knows_ledger (hFits : d.Fits) (s : SymbolKey) :
    d.ledger.knows s = true ↔
      s.symbol.Declared (d.terminals.size + 1) (d.nonterminals.size + 1) := by
  have hLimit : idLimit = 65535 := rfl
  have hKnown : ∀ (key : Key) (head : String) (names : Array String), names.size < idLimit →
      ((key != 0 && (Register.numbered 0 (head :: names.toList)).contains key) = true ↔
        0 < key.toNat ∧ key.toNat < names.size + 1) := by
    intro key head names hSize
    have hLength : 0 + (head :: names.toList).length = names.size + 1 := by
      rw [List.length_cons, Array.length_toList, Nat.zero_add]
    rw [Bool.and_eq_true, bne_iff_ne, Register.contains_numbered (by omega), hLength, Ne,
      ← UInt16.toNat_inj, UInt16.toNat_zero]
    omega
  cases s with
  | terminal t => exact hKnown t _ _ (hFits .terminal)
  | nonterminal n => exact hKnown n _ _ (hFits .nonterminal)

/-- The rule that the keys of both sides name has these keys. -/
theorem keyed_symbols (left : Key) (right : List SymbolKey) :
    (Rule.mk left.toNat (right.map SymbolKey.symbol)).keyed = ⟨left, right⟩ := by
  simp [Rule.keyed, Function.comp_def]

/-- The checks of a rule look for the faults that the declaration may have. -/
theorem verifyRule_ledger (hFits : d.Fits) (left : Key) (right : List SymbolKey) :
    (do
      Ledger.require ((← get).knows (.nonterminal left)) .unknownLeft
      Ledger.require (right.all (← get).knows) .unknownRight : Bookkeeping Unit) d.ledger =
      (((Declaration.rule left.toNat (right.map SymbolKey.symbol)).fault? d).elim (.ok ()) .error,
        d.ledger) := by
  have hLeft := knows_ledger hFits (.nonterminal left)
  have hRight : right.all d.ledger.knows = true ↔
      ∀ s ∈ right.map SymbolKey.symbol,
        s.Declared (d.terminals.size + 1) (d.nonterminals.size + 1) := by
    simp only [List.all_eq_true, knows_ledger hFits, List.forall_mem_map]
  simp only [bind_apply, get_apply, Ledger.require_apply, Declaration.fault?]
  by_cases hl : (Symbol.nonterminal left.toNat).Declared (d.terminals.size + 1)
      (d.nonterminals.size + 1)
  · simp only [if_pos (hLeft.mpr hl), if_pos hl]
    by_cases hr : ∀ s ∈ right.map SymbolKey.symbol,
        s.Declared (d.terminals.size + 1) (d.nonterminals.size + 1)
    · rw [if_pos (hRight.mpr hr), if_pos hr]
      rfl
    · rw [if_neg (mt hRight.mp hr), if_neg hr]
      rfl
  · rw [if_neg (mt hLeft.mp hl), if_neg hl]
    rfl

/-- The ledger after a declaration that takes a number. -/
theorem ledger_eq_of_adds {declaration : Declaration} {answer : Option Nat} {d' : Draft}
    (h : declaration.Adds d answer d') (hStart : declaration.start? = none) :
    d'.ledger = {
      terminals := .numbered 0 (endMarkerName :: d.terminals.toList ++ declaration.terminals)
      nonterminals := .numbered 0 ("" :: d.nonterminals.toList ++ declaration.nonterminals)
      rules := .numbered 1 (d.rules.toList.map Rule.keyed ++ declaration.rules.map Rule.keyed)
      start := d.start.map UInt16.ofNat
      nextTerminal := .ofNat
        (d.count .terminal + (if declaration.kind? = some .terminal then 1 else 0) + 1)
      nextNonterminal := .ofNat
        (d.count .nonterminal + (if declaration.kind? = some .nonterminal then 1 else 0) + 1)
      nextRule := .ofNat
        (d.count .rule + (if declaration.kind? = some .rule then 1 else 0) + 1) } := by
  have hSame : d'.start = d.start := by rw [h.start, hStart, Option.none_or]
  rw [← h.count, ← h.count, ← h.count, List.cons_append, List.cons_append, ← List.map_append,
    ← h.terminals, ← h.nonterminals, ← h.rules, ← hSame]
  rfl

/-- A call that gives a key, when its checks look for the faults of the declaration: it takes
the key from a counter, advances the counter and then writes its record. -/
theorem giveKey_ledger (hFits : d.Fits) (declaration : Declaration) (kind : Kind)
    (check : Bookkeeping Unit) (counter : Ledger → Key) (advance write : Key → Ledger → Ledger)
    (hKind : declaration.kind? = some kind)
    (hCheck : check d.ledger = ((declaration.fault? d).elim (.ok ()) .error, d.ledger))
    (hCounter : counter d.ledger = .ofNat (d.count kind + 1))
    (hWrite : ∀ d', declaration.Adds d (some (d.count kind + 1)) d' →
      d.count kind + 1 < idLimit →
      write (.ofNat (d.count kind + 1)) (advance (.ofNat (d.count kind + 1 + 1)) d.ledger) =
        d'.ledger) :
    (some <$> (do
      check
      let id := counter (← get)
      let next ← Ledger.following id kind.full
      modify (advance next)
      modify (write id)
      return id) : Bookkeeping (Option Key)) d.ledger =
      ((declaration.perform d).1.map (Option.map UInt16.ofNat),
        (declaration.perform d).2.ledger) := by
  have hOutcome := declaration.outcome d
  simp only [map_apply, bind_apply, get_apply, modify_apply, pure_apply, hCheck]
  generalize declaration.perform d = performed at hOutcome
  cases hOutcome with
  | refused hFault =>
    rw [hFault]
    rfl
  | full hFault hOther hFull =>
    cases hKind.symm.trans hOther
    simp only [hFault, Option.elim_none, hCounter,
      Ledger.following_of_not_lt (hFits kind) hFull]
    rfl
  | @added answer d' hFault hAdds =>
    have hAnswer : answer = some (d.count kind + 1) := by rw [hAdds.answer, hKind]; rfl
    subst hAnswer
    have hRoom : d.count kind + 1 < idLimit := by
      have hBelow := hAdds.room kind hKind
      rwa [hAdds.count, if_pos hKind] at hBelow
    simp only [hFault, Option.elim_none, hCounter, Ledger.following_of_lt hRoom,
      hWrite d' hAdds hRoom]
    rfl

theorem startSymbol_ledger (hFits : d.Fits) (n : Key) :
    Ledger.startSymbol n d.ledger =
      ((startSymbol n.toNat d).1, (startSymbol n.toNat d).2.ledger) := by
  have hKnown := knows_ledger hFits (.nonterminal n)
  unfold Ledger.startSymbol Draft.startSymbol
  simp only [bind_apply, get_apply, modify_apply, Ledger.require_apply]
  by_cases hn : (Symbol.nonterminal n.toNat).Declared (d.terminals.size + 1)
      (d.nonterminals.size + 1)
  · rw [if_pos (hKnown.mpr hn), dif_pos hn]
    simp only [ledger, Option.map_some, UInt16.ofNat_toNat]
  · rw [if_neg (mt hKnown.mp hn), dif_neg hn]

end Draft

/-- A call makes of the ledger of a draft that of the draft after the declaration. -/
theorem Call.make_ledger {d : Draft} (hFits : d.Fits) (call : Call) :
    call.make d.ledger =
      ((call.declaration.perform d).1.map (Option.map UInt16.ofNat),
        (call.declaration.perform d).2.ledger) := by
  cases call with
  | terminal name =>
    refine Draft.giveKey_ledger hFits (.terminal name) .terminal (Ledger.verifyName name)
      (·.nextTerminal) (fun next l => { l with nextTerminal := next })
      (fun id l => { l with terminals := l.terminals.put id ⟨id, name⟩ })
      rfl (d.verifyName_ledger name) rfl fun d' hAdds hRoom => ?_
    have hPut := Register.put_next 0 (endMarkerName :: d.terminals.toList) name
      (Nat.zero_add _) hRoom
    rw [Draft.ledger_eq_of_adds hAdds rfl]
    simp only [Declaration.terminals, Declaration.nonterminals, Declaration.rules, List.map_nil,
      List.append_nil, ← hPut]
    rfl
  | nonterminal name =>
    refine Draft.giveKey_ledger hFits (.nonterminal name) .nonterminal (Ledger.verifyName name)
      (·.nextNonterminal) (fun next l => { l with nextNonterminal := next })
      (fun id l => { l with nonterminals := l.nonterminals.put id ⟨id, name⟩ })
      rfl (d.verifyName_ledger name) rfl fun d' hAdds hRoom => ?_
    have hPut := Register.put_next 0 ("" :: d.nonterminals.toList) name (Nat.zero_add _) hRoom
    rw [Draft.ledger_eq_of_adds hAdds rfl]
    simp only [Declaration.terminals, Declaration.nonterminals, Declaration.rules, List.map_nil,
      List.append_nil, ← hPut]
    rfl
  | rule left right =>
    rw [make, Ledger.rule]
    refine Eq.trans ?_ (Draft.giveKey_ledger hFits
      (.rule left.toNat (right.map SymbolKey.symbol)) .rule
      (do
        Ledger.require ((← get).knows (.nonterminal left)) .unknownLeft
        Ledger.require (right.all (← get).knows) .unknownRight)
      (·.nextRule) (fun next l => { l with nextRule := next })
      (fun id l => { l with rules := l.rules.put id ⟨id, ⟨left, right⟩⟩ })
      rfl (Draft.verifyRule_ledger hFits left right) rfl ?_)
    · simp only [bind_assoc]
      rfl
    · intro d' hAdds hRoom
      have hLength : 1 + (d.rules.toList.map Rule.keyed).length = d.count .rule + 1 := by
        rw [List.length_map, Nat.add_comm]
        rfl
      have hPut := Register.put_next 1 (d.rules.toList.map Rule.keyed) ⟨left, right⟩ hLength hRoom
      rw [Draft.ledger_eq_of_adds hAdds rfl]
      simp only [Declaration.terminals, Declaration.nonterminals, Declaration.rules,
        List.map_singleton, Draft.keyed_symbols, List.append_nil, ← hPut]
      rfl
  | start n =>
    rw [make, Bookkeeping.map_apply, Draft.startSymbol_ledger hFits, declaration,
      Declaration.perform, Definition.map_apply]
    cases (Draft.startSymbol n.toNat d).1 <;> rfl

theorem Draft.Fits.perform {d : Draft} (hFits : d.Fits) (declaration : Declaration) :
    (declaration.perform d).2.Fits := by
  rcases hPerform : declaration.perform d with ⟨_ | answer, d'⟩
  · obtain rfl := Declaration.draft_eq_of_error hPerform
    exact hFits
  · exact (Declaration.perform_ok hPerform).fits hFits

/-! ## Courses of calls -/

namespace Ledger

/-- The calls of a course that succeed, with their answers. -/
def accepted (l : Ledger) (calls : List Call) : List (Call × Option Key) :=
  (calls.zip (l.attempt calls).1).filterMap
    fun tried => tried.2.toOption.map fun answer => (tried.1, answer)

variable {d : Draft} {calls : List Call}

theorem attempt_ledger (hFits : d.Fits) (calls : List Call) :
    d.ledger.attempt calls =
      ((d.attempt (calls.map fun call => call.declaration.perform)).1.map
          (Except.map (Option.map UInt16.ofNat)),
        (d.after (calls.map Call.declaration)).ledger) := by
  induction calls generalizing d with
  | nil => rfl
  | cons call calls ih =>
    have hRest := ih (hFits.perform call.declaration)
    simp only [attempt, Call.make_ledger hFits, hRest]
    rfl

/-- Calls and declarations are accepted alike. -/
theorem accepted_ledger (hFits : d.Fits) (calls : List Call) :
    (d.ledger.accepted calls).map (fun tried => (tried.1.declaration, tried.2)) =
      (d.accepted (calls.map Call.declaration)).map
        fun tried => (tried.1, tried.2.map UInt16.ofNat) := by
  unfold accepted Draft.accepted
  rw [attempt_ledger hFits, List.zip_map_right, List.zip_map_left, List.map_map,
    List.filterMap_map, List.filterMap_map, List.map_filterMap, List.map_filterMap]
  refine congrArg (fun f => List.filterMap f _) (funext fun tried => ?_)
  rcases tried with ⟨call, e | answer⟩ <;> rfl

theorem accepted_cons_of_ok {l l' : Ledger} {call : Call} {answer : Option Key}
    (h : call.make l = (.ok answer, l')) :
    l.accepted (call :: calls) = (call, answer) :: l'.accepted calls := by
  simp [accepted, attempt, h, Except.toOption]

theorem accepted_cons_of_error {l l' : Ledger} {call : Call} {e : DefinitionError}
    (h : call.make l = (.error e, l')) :
    l.accepted (call :: calls) = l'.accepted calls := by
  simp [accepted, attempt, h, Except.toOption]

theorem eq_of_error (hFits : d.Fits) {call : Call} {e : DefinitionError} {l : Ledger}
    (h : call.make d.ledger = (.error e, l)) : l = d.ledger := by
  rw [Call.make_ledger hFits] at h
  rcases hPerform : call.declaration.perform d with ⟨e' | answer, d'⟩
  · obtain rfl := Declaration.draft_eq_of_error hPerform
    rw [hPerform] at h
    exact (Prod.mk.inj h).2.symm
  · rw [hPerform] at h
    cases (Prod.mk.inj h).1

theorem attempt_accepted (hFits : d.Fits) (calls : List Call) :
    d.ledger.attempt ((d.ledger.accepted calls).map Prod.fst) =
      ((d.ledger.accepted calls).map fun tried => .ok tried.2, (d.ledger.attempt calls).2) := by
  induction calls generalizing d with
  | nil => rfl
  | cons call calls ih =>
    have hAfter := ih (hFits.perform call.declaration)
    have hLedger : (call.make d.ledger).2 = (call.declaration.perform d).2.ledger :=
      congrArg Prod.snd (Call.make_ledger hFits call)
    rw [← hLedger] at hAfter
    rcases hMake : call.make d.ledger with ⟨e | answer, l⟩
    · obtain rfl := eq_of_error hFits hMake
      rw [hMake] at hAfter
      rw [accepted_cons_of_error hMake, attempt, hMake]
      exact hAfter
    · rw [hMake] at hAfter
      simp only [accepted_cons_of_ok hMake, List.map_cons, attempt, hMake, hAfter]

end Ledger

/-! ## The finished grammar -/

namespace Draft

variable {d : Draft}

theorem start?_ledger (d : Draft) :
    d.ledger.start.or (d.ledger.rules.head?.map (·.2.value.left)) =
      d.start?.map UInt16.ofNat := by
  have hHead : d.ledger.rules.head?.map (·.2.value.left) =
      (d.rules[0]?.map (·.left)).map UInt16.ofNat := by
    rw [← Array.getElem?_toList, ledger]
    cases d.rules.toList <;> rfl
  rw [hHead, start?, ledger]
  cases d.start <;> rfl

theorem primed_ledger (d : Draft) (name : String) :
    primed d.ledger.names name =
      primed (endMarkerName :: (d.terminals.toList ++ d.nonterminals.toList)) name := by
  refine primed_congr name fun other hNe => ?_
  rw [names_ledger]
  simp [hNe]

theorem finish_ledger (hFits : d.Fits) :
    d.ledger.finish? = some (d.finish.map Grammar.keyed) := by
  have hEmpty : d.ledger.rules.isEmpty = d.rules.isEmpty := by
    rw [ledger, ← Array.isEmpty_toList]
    cases d.rules.toList <;> rfl
  have hLimit : idLimit = 65535 := rfl
  unfold Ledger.finish?
  rw [start?_ledger, hEmpty]
  rcases hStart : d.start? with _ | start
  · rw [finish_of_no_rules (.inl hStart)]
    rfl
  · by_cases hRules : d.rules = #[]
    · rw [finish_of_no_rules (.inr hRules), hRules]
      rfl
    · obtain ⟨name, hName, hNames⟩ := exists_startName hStart
      have hPos : 0 < start := (start?_declared hStart).1
      have hSize : d.nonterminals.size < idLimit := hFits .nonterminal
      have hRuleSize : d.rules.size < idLimit := hFits .rule
      have hLength : ("" :: d.nonterminals.toList).length = d.nonterminals.size + 1 := by
        rw [List.length_cons, Array.length_toList]
      have hDeclared : d.ledger.nonterminals.lookup (.ofNat start) =
          some ⟨.ofNat start, name⟩ := by
        have hAt : ("" :: d.nonterminals.toList)[start]? = some name := by
          rw [List.getElem?_cons, if_neg (Nat.ne_of_gt hPos), Array.getElem?_toList, hName]
        have := Register.lookup_numbered 0 (by omega) hAt
        rwa [Nat.zero_add] at this
      have hFirst : d.ledger.nonterminals.lookup 0 = some ⟨0, ""⟩ := rfl
      have hExtend := Register.extend_numbered 0
        [(Rule.mk augmentedStart [.nonterminal start]).keyed]
        (d.rules.toList.map Rule.keyed) (by simp; omega)
      rw [finish_eq_ok_iff.mpr ⟨start, hStart, hRules, rfl⟩]
      simp only [Option.map_some, hDeclared, hFirst, primed_ledger, Except.map,
        Grammar.keyed, terminals_augment, rules_augment, hNames]
      rw [if_neg (by simpa using hRules)]
      refine congrArg (fun kept => some (Except.ok kept)) ?_
      rw [KeyedGrammar.mk.injEq]
      exact ⟨rfl, rfl, hExtend, rfl⟩

end Draft

/-! ## What every course of calls keeps -/

/-- Keys count the records from `0` on, and every record carries its key. -/
def Register.Counted {α : Type} (entries : Register α) : Prop :=
  ∀ (i : Nat) (entry : Key × Record α), entries[i]? = some entry →
    entry.1.toNat = i ∧ entry.2.id = entry.1

theorem Register.counted_numbered {α : Type} {values : List α} (h : values.length ≤ 65536) :
    (numbered 0 values).Counted := by
  intro i entry hEntry
  obtain ⟨hKey, hId, _⟩ := key_of_getElem? 0 (by omega) hEntry
  exact ⟨hKey.trans (Nat.zero_add i), hId⟩

/-- A grammar with its records: they are those of `g`, each at its key. -/
structure KeyedGrammar.Keeps (kept : KeyedGrammar) (g : Grammar) : Prop where
  eq_keyed : kept = g.keyed
  terminals : kept.terminals.Counted
  nonterminals : kept.nonterminals.Counted
  rules : kept.rules.Counted

/-- The keys of one kind that a course of calls is answered with. -/
def Ledger.keysOf (kind : Kind) (accepted : List (Call × Option Key)) : List Key :=
  accepted.filterMap
    fun tried => if tried.1.declaration.kind? = some kind then tried.2 else none

/-- What a course of calls keeps, whether or not some of them fail. -/
structure Ledger.Upheld (calls : List Call) : Prop where
  /-- A call that fails leaves the ledger as it was. -/
  unchanged : ∀ (call : Call) (e : DefinitionError) (l : Ledger),
    call.make (opened.attempt calls).2 = (.error e, l) → l = (opened.attempt calls).2
  /-- The calls that fail might as well not have been made. -/
  forgotten : opened.attempt ((opened.accepted calls).map Prod.fst) =
    ((opened.accepted calls).map fun tried => .ok tried.2, (opened.attempt calls).2)
  /-- The keys of each kind count on from `1` and stay below the limit. -/
  keys : ∀ kind, ∃ count < idLimit,
    keysOf kind (opened.accepted calls) = (List.range' 1 count).map UInt16.ofNat
  /-- Every record that is looked up at the end is there. -/
  finishes : (opened.attempt calls).2.finish? ≠ none
  finished : ∀ kept, (opened.attempt calls).2.finish? = some (.ok kept) →
    ∃ g : Grammar, (Draft.empty.after (calls.map Call.declaration)).finish = .ok g ∧
      kept.Keeps g ∧
      g.DeclaredBy ((opened.accepted calls).map fun tried => tried.1.declaration)

theorem Draft.Fits.keeps {d : Draft} {g : Grammar} (hFits : d.Fits) (hFinish : d.finish = .ok g) :
    g.keyed.Keeps g := by
  obtain ⟨start, h, _, rfl⟩ := finish_eq_ok_iff.mp hFinish
  obtain ⟨name, _, hNames⟩ := exists_startName h
  have hLimit : idLimit = 65535 := rfl
  have hTerminals : d.terminals.size < idLimit := hFits .terminal
  have hNonterminals : d.nonterminals.size < idLimit := hFits .nonterminal
  have hRules : d.rules.size < idLimit := hFits .rule
  refine ⟨rfl, Register.counted_numbered ?_, Register.counted_numbered ?_,
    Register.counted_numbered ?_⟩
  · rw [terminals_augment, List.length_cons, Array.length_toList]
    omega
  · rw [hNames, List.length_cons, Array.length_toList]
    omega
  · rw [rules_augment, List.length_map, List.length_cons, Array.length_toList]
    omega

/-- The keys of a course are the numbers of the declarations. -/
theorem Ledger.keysOf_accepted {d : Draft} (hFits : d.Fits) (kind : Kind) (calls : List Call) :
    keysOf kind (d.ledger.accepted calls) =
      (Draft.numbersOf kind (d.accepted (calls.map Call.declaration))).map UInt16.ofNat := by
  have hKeys : keysOf kind (d.ledger.accepted calls) =
      ((d.ledger.accepted calls).map fun tried => (tried.1.declaration, tried.2)).filterMap
        fun tried => if tried.1.kind? = some kind then tried.2 else none := by
    rw [List.filterMap_map]
    rfl
  rw [hKeys, accepted_ledger hFits, Draft.numbersOf, List.filterMap_map, List.map_filterMap]
  refine congrArg (fun f => List.filterMap f _) (funext fun tried => ?_)
  rw [Function.comp_apply]
  split <;> rfl

theorem Ledger.upheld (calls : List Call) : Upheld calls := by
  have hEmpty := Draft.fits_empty
  have hGrows := Draft.empty.grows (calls.map Call.declaration)
  have hFits : (Draft.empty.after (calls.map Call.declaration)).Fits := hEmpty.after _
  have hAfter : (opened.attempt calls).2 =
      (Draft.empty.after (calls.map Call.declaration)).ledger :=
    congrArg Prod.snd (attempt_ledger hEmpty calls)
  have hFinish := Draft.finish_ledger hFits
  have hAccepted : (opened.accepted calls).map (fun tried => tried.1.declaration) =
      (Draft.empty.accepted (calls.map Call.declaration)).map Prod.fst := by
    have hBoth := congrArg (List.map Prod.fst) (accepted_ledger hEmpty calls)
    rw [List.map_map, List.map_map] at hBoth
    exact hBoth
  constructor
  case unchanged =>
    intro call e l hMake
    rw [hAfter] at hMake ⊢
    exact eq_of_error hFits hMake
  case forgotten => exact attempt_accepted hEmpty calls
  case keys =>
    intro kind
    have hCount : Draft.empty.count kind = 0 := by cases kind <;> rfl
    refine ⟨_, hFits kind, ?_⟩
    have hNumbers := hGrows.numbers kind
    rw [hCount, Nat.sub_zero] at hNumbers
    rw [← hNumbers]
    exact keysOf_accepted hEmpty kind calls
  case finishes =>
    rw [hAfter, hFinish]
    exact Option.some_ne_none _
  case finished =>
    intro kept hKept
    rw [hAfter, hFinish] at hKept
    rcases hDraft : (Draft.empty.after (calls.map Call.declaration)).finish with e | g
    · rw [hDraft] at hKept
      cases hKept
    · rw [hDraft] at hKept
      cases hKept
      refine ⟨g, rfl, hFits.keeps hDraft, ?_⟩
      rw [hAccepted]
      exact hGrows.declaredBy hDraft

end ShiftReduce
