import ShiftReduce.Grammar.Declaration

/-!
# What declarations add

A declaration is refused, for a fault of its own or for lack of a number, and leaves the
draft as it was; or else it adds one symbol or one rule at the end of its list, or sets
the start symbol, and is answered by the new length of the list (`Declaration.outcome`).
Everything about courses of declarations follows from this by induction on the course,
in which a declaration that fails counts for nothing: the lists grow by what the accepted
declarations add, and the answers of each kind count on from the length that the list had
before (`Draft.grows`).
-/

namespace ShiftReduce

/-! ## Kinds -/

/-- What is numbered. -/
inductive Kind
  | terminal
  | nonterminal
  | rule
  deriving DecidableEq

/-- The error when all numbers are given. -/
def Kind.full : Kind → DefinitionError
  | .terminal => .tooManyTerminals
  | .nonterminal => .tooManyNonterminals
  | .rule => .tooManyRules

namespace Declaration

/-- What a declaration numbers. -/
def kind? : Declaration → Option Kind
  | .terminal _ => some .terminal
  | .nonterminal _ => some .nonterminal
  | .rule _ _ => some .rule
  | .start _ => none

def terminals : Declaration → List String
  | .terminal name => [name]
  | _ => []

def nonterminals : Declaration → List String
  | .nonterminal name => [name]
  | _ => []

def rules : Declaration → List Rule
  | .rule left right => [⟨left, right⟩]
  | _ => []

def start? : Declaration → Option Nonterminal
  | .start n => some n
  | _ => none

/-- Why a declaration is refused, whether or not there is a number for it. -/
def fault? (d : Draft) : Declaration → Option DefinitionError
  | .terminal name => d.nameError? name
  | .nonterminal name => d.nameError? name
  | .rule left right =>
    if (Symbol.nonterminal left).Declared (d.terminals.size + 1) (d.nonterminals.size + 1) then
      if ∀ s ∈ right, s.Declared (d.terminals.size + 1) (d.nonterminals.size + 1) then none
      else some .unknownRight
    else some .unknownLeft
  | .start n =>
    if (Symbol.nonterminal n).Declared (d.terminals.size + 1) (d.nonterminals.size + 1) then none
    else some .unknownStart

end Declaration

namespace Draft

def count (d : Draft) : Kind → Nat
  | .terminal => d.terminals.size
  | .nonterminal => d.nonterminals.size
  | .rule => d.rules.size

/-- All numbers of a draft are below the limit. -/
def Fits (d : Draft) : Prop :=
  ∀ kind, d.count kind < idLimit

theorem fits_empty : empty.Fits := by
  intro kind
  cases kind <;> decide

end Draft

/-! ## One declaration -/

/-- What a declaration makes of a draft when it succeeds. -/
structure Declaration.Adds (declaration : Declaration) (d : Draft) (answer : Option Nat)
    (d' : Draft) : Prop where
  terminals : d'.terminals.toList = d.terminals.toList ++ declaration.terminals
  nonterminals : d'.nonterminals.toList = d.nonterminals.toList ++ declaration.nonterminals
  rules : d'.rules.toList = d.rules.toList ++ declaration.rules
  start : d'.start = declaration.start?.or d.start
  /-- The answer is the next number of its kind. -/
  answer : answer = declaration.kind?.map fun kind => d.count kind + 1
  count : ∀ kind, d'.count kind = d.count kind + if declaration.kind? = some kind then 1 else 0
  room : ∀ kind ∈ declaration.kind?, d'.count kind < idLimit

theorem Definition.map_apply {α β : Type} (f : α → β) (course : Definition α) (d : Draft) :
    (f <$> course : Definition β) d = ((course d).1.map f, (course d).2) := by
  simp only [Functor.map, ExceptT.map, ExceptT.mk, bind, StateT.bind]
  rcases course d with ⟨answer, d'⟩
  cases answer <;> rfl

namespace Declaration

variable {declaration : Declaration} {d d' : Draft} {kind : Kind} {answer : Option Nat}

/-- What is declared at the end of a list takes the number after those in the list. -/
theorem Adds.of_append (hKind : declaration.kind? = some kind) (hRoom : d.count kind + 1 < idLimit)
    (terminals : d'.terminals.toList = d.terminals.toList ++ declaration.terminals)
    (nonterminals : d'.nonterminals.toList = d.nonterminals.toList ++ declaration.nonterminals)
    (rules : d'.rules.toList = d.rules.toList ++ declaration.rules)
    (start : d'.start = d.start) : declaration.Adds d (some (d.count kind + 1)) d' := by
  have hTerminals := congrArg List.length terminals
  have hNonterminals := congrArg List.length nonterminals
  have hRules := congrArg List.length rules
  simp only [List.length_append, Array.length_toList] at hTerminals hNonterminals hRules
  have hCount : ∀ other, d'.count other =
      d.count other + if declaration.kind? = some other then 1 else 0 := by
    intro other
    cases declaration with
    | start n => cases hKind
    | terminal _ | nonterminal _ | rule _ _ => cases other <;> assumption
  exact {
    terminals := terminals
    nonterminals := nonterminals
    rules := rules
    start := by
      cases declaration with
      | start n => cases hKind
      | terminal _ | nonterminal _ | rule _ _ => exact start
    answer := by rw [hKind]; rfl
    count := hCount
    room := fun other hOther => by
      cases hKind.symm.trans hOther
      rw [hCount, if_pos hKind]
      exact hRoom }

/-- What may come of a declaration. Unless it is accepted, the draft is left as it was. -/
inductive Outcome (declaration : Declaration) (d : Draft) :
    Except DefinitionError (Option Nat) × Draft → Prop
  | refused {e : DefinitionError} (hFault : declaration.fault? d = some e) :
      Outcome declaration d (.error e, d)
  | full {kind : Kind} (hFault : declaration.fault? d = none)
      (hKind : declaration.kind? = some kind) (hFull : ¬ d.count kind + 1 < idLimit) :
      Outcome declaration d (.error kind.full, d)
  | added {answer : Option Nat} {d' : Draft} (hFault : declaration.fault? d = none)
      (hAdds : declaration.Adds d answer d') : Outcome declaration d (.ok answer, d')

/-- The declaration of a name, terminal or not: `add` is what it makes of the draft. -/
theorem Outcome.of_name {name : String} {course : Definition Nat}
    {add : d.nameError? name = none → Draft} (hFault : declaration.fault? d = d.nameError? name)
    (hKind : declaration.kind? = some kind)
    (hCourse : course d = match h : d.nameError? name with
      | some e => (.error e, d)
      | none => if d.count kind + 1 < idLimit then (.ok (d.count kind + 1), add h)
        else (.error kind.full, d))
    (hAdds : ∀ h, d.count kind + 1 < idLimit →
      declaration.Adds d (some (d.count kind + 1)) (add h)) :
    declaration.Outcome d ((some <$> course : Definition (Option Nat)) d) := by
  rw [Definition.map_apply, hCourse]
  split
  · next e he => exact .refused (hFault.trans he)
  · next hFree =>
    split
    · next hRoom => exact .added (hFault.trans hFree) (hAdds hFree hRoom)
    · next hFull => exact .full (hFault.trans hFree) hKind hFull

theorem outcome (declaration : Declaration) (d : Draft) :
    declaration.Outcome d (declaration.perform d) := by
  cases declaration with
  | terminal name =>
    refine .of_name rfl rfl rfl fun _ hRoom => .of_append rfl hRoom ?_ ?_ ?_ rfl
    · exact Array.toList_push
    · exact (List.append_nil _).symm
    · exact (List.append_nil _).symm
  | nonterminal name =>
    refine .of_name rfl rfl rfl fun _ hRoom => .of_append rfl hRoom ?_ ?_ ?_ rfl
    · exact (List.append_nil _).symm
    · exact Array.toList_push
    · exact (List.append_nil _).symm
  | rule left right =>
    rw [perform, Definition.map_apply, Draft.rule]
    split
    · next hLeft =>
      split
      · next hRight =>
        have hFault : (rule left right).fault? d = none := by
          rw [fault?, if_pos hLeft, if_pos hRight]
        split
        · next hRoom =>
          change d.count .rule + 1 < idLimit at hRoom
          refine .added hFault (.of_append rfl hRoom ?_ ?_ ?_ rfl)
          · exact (List.append_nil _).symm
          · exact (List.append_nil _).symm
          · exact Array.toList_push
        · next hFull => exact .full hFault rfl hFull
      · next hRight => exact .refused (by rw [fault?, if_pos hLeft, if_neg hRight])
    · next hLeft => exact .refused (by rw [fault?, if_neg hLeft])
  | start n =>
    rw [perform, Definition.map_apply, Draft.startSymbol]
    split
    · next hDeclared =>
      refine .added (by rw [fault?, if_pos hDeclared]) ?_
      exact {
        terminals := (List.append_nil _).symm
        nonterminals := (List.append_nil _).symm
        rules := (List.append_nil _).symm
        start := rfl
        answer := rfl
        count := fun kind => by cases kind <;> rfl
        room := fun kind hKind => by cases hKind }
    · next hDeclared => exact .refused (by rw [fault?, if_neg hDeclared])

/-- A declaration that fails leaves the draft as it was. -/
theorem draft_eq_of_error {e : DefinitionError} (h : declaration.perform d = (.error e, d')) :
    d' = d := by
  have hOutcome := declaration.outcome d
  rw [h] at hOutcome
  cases hOutcome with
  | refused _ => rfl
  | full _ _ _ => rfl

theorem perform_ok (h : declaration.perform d = (.ok answer, d')) :
    declaration.Adds d answer d' := by
  have hOutcome := declaration.outcome d
  rw [h] at hOutcome
  cases hOutcome with
  | added _ hAdds => exact hAdds

end Declaration

theorem Declaration.Adds.fits {declaration : Declaration} {d d' : Draft} {answer : Option Nat}
    (h : declaration.Adds d answer d') (hFits : d.Fits) : d'.Fits := by
  intro kind
  by_cases hKind : declaration.kind? = some kind
  · exact h.room kind hKind
  · rw [h.count kind, if_neg hKind]
    exact hFits kind

/-! ## Courses of declarations -/

namespace Draft

/-- The draft after a course of declarations, some of which may fail. -/
def after (d : Draft) (declarations : List Declaration) : Draft :=
  (d.attempt (declarations.map Declaration.perform)).2

/-- The declarations of a course that succeed, with their answers. -/
def accepted (d : Draft) (declarations : List Declaration) : List (Declaration × Option Nat) :=
  (declarations.zip (d.attempt (declarations.map Declaration.perform)).1).filterMap
    fun tried => tried.2.toOption.map fun answer => (tried.1, answer)

variable {d d' : Draft} {declaration : Declaration} {declarations : List Declaration}

theorem after_cons : d.after (declaration :: declarations) =
    (declaration.perform d).2.after declarations :=
  rfl

theorem accepted_cons_of_ok {answer : Option Nat} (h : declaration.perform d = (.ok answer, d')) :
    d.accepted (declaration :: declarations) =
      (declaration, answer) :: d'.accepted declarations := by
  simp [accepted, attempt, h, Except.toOption]

theorem accepted_cons_of_error {e : DefinitionError}
    (h : declaration.perform d = (.error e, d')) :
    d.accepted (declaration :: declarations) = d.accepted declarations := by
  obtain rfl := Declaration.draft_eq_of_error h
  simp [accepted, attempt, h, Except.toOption]

/-- What one declaration does to a course: it adds to the draft and is accepted, or
else the rest of the course begins where the whole course began. -/
theorem cons_cases (d : Draft) (declaration : Declaration) (declarations : List Declaration) :
    (∃ answer d', declaration.Adds d answer d' ∧
      d.after (declaration :: declarations) = d'.after declarations ∧
      d.accepted (declaration :: declarations) =
        (declaration, answer) :: d'.accepted declarations) ∨
    (d.after (declaration :: declarations) = d.after declarations ∧
      d.accepted (declaration :: declarations) = d.accepted declarations) := by
  rcases hPerform : declaration.perform d with ⟨_ | answer, d'⟩
  · refine .inr ⟨?_, accepted_cons_of_error hPerform⟩
    rw [after_cons, hPerform, Declaration.draft_eq_of_error hPerform]
  · refine .inl ⟨answer, d', Declaration.perform_ok hPerform, ?_, accepted_cons_of_ok hPerform⟩
    rw [after_cons, hPerform]

theorem Fits.after (h : d.Fits) (declarations : List Declaration) :
    (d.after declarations).Fits := by
  induction declarations generalizing d with
  | nil => exact h
  | cons declaration declarations ih =>
    obtain ⟨_, _, hAdds, hAfter, _⟩ | ⟨hAfter, _⟩ := d.cons_cases declaration declarations
    · exact hAfter ▸ ih (hAdds.fits h)
    · exact hAfter ▸ ih h

/-- The answers of one kind. -/
def numbersOf (kind : Kind) (accepted : List (Declaration × Option Nat)) : List Nat :=
  accepted.filterMap fun tried => if tried.1.kind? = some kind then tried.2 else none

/-- How a draft grows by declarations that are accepted. -/
structure Grows (d : Draft) (accepted : List (Declaration × Option Nat)) (d' : Draft) : Prop where
  terminals : d'.terminals.toList = d.terminals.toList ++ accepted.flatMap (·.1.terminals)
  nonterminals : d'.nonterminals.toList = d.nonterminals.toList ++
    accepted.flatMap (·.1.nonterminals)
  rules : d'.rules.toList = d.rules.toList ++ accepted.flatMap (·.1.rules)
  start : d'.start = (accepted.filterMap (·.1.start?)).getLast?.or d.start
  /-- The answers of each kind count on. -/
  numbers : ∀ kind, numbersOf kind accepted =
    List.range' (d.count kind + 1) (d'.count kind - d.count kind)
  count_le : ∀ kind, d.count kind ≤ d'.count kind

theorem Grows.refl (d : Draft) : d.Grows [] d where
  terminals := (List.append_nil _).symm
  nonterminals := (List.append_nil _).symm
  rules := (List.append_nil _).symm
  start := rfl
  numbers kind := by rw [Nat.sub_self]; rfl
  count_le _ := Nat.le_refl _

theorem Grows.cons {d'' : Draft} {answer : Option Nat} {accepted : List (Declaration × Option Nat)}
    (hAdds : declaration.Adds d answer d') (h : d'.Grows accepted d'') :
    d.Grows ((declaration, answer) :: accepted) d'' where
  terminals := by rw [h.terminals, hAdds.terminals, List.append_assoc, List.flatMap_cons]
  nonterminals := by rw [h.nonterminals, hAdds.nonterminals, List.append_assoc, List.flatMap_cons]
  rules := by rw [h.rules, hAdds.rules, List.append_assoc, List.flatMap_cons]
  start := by
    rw [h.start, hAdds.start, List.filterMap_cons]
    cases declaration.start? with
    | none => rfl
    | some n => rw [List.getLast?_cons]; cases (accepted.filterMap _).getLast? <;> rfl
  numbers kind := by
    have hCount := hAdds.count kind
    have hLe := h.count_le kind
    have hNumbers := h.numbers kind
    unfold numbersOf at hNumbers ⊢
    rw [List.filterMap_cons, hNumbers, hAdds.answer]
    by_cases hKind : declaration.kind? = some kind
    · rw [if_pos hKind] at hCount ⊢
      rw [hKind, hCount]
      have hSplit : d''.count kind - d.count kind = d''.count kind - (d.count kind + 1) + 1 := by
        omega
      rw [hSplit, List.range'_succ]
      rfl
    · rw [if_neg hKind, Nat.add_zero] at hCount
      rw [if_neg hKind, hCount]
  count_le kind := by
    have := hAdds.count kind
    have := h.count_le kind
    omega

/-- A draft grows by the declarations of a course that are accepted. -/
theorem grows (d : Draft) (declarations : List Declaration) :
    d.Grows (d.accepted declarations) (d.after declarations) := by
  induction declarations generalizing d with
  | nil => exact .refl d
  | cons declaration declarations ih =>
    obtain ⟨_, d', hAdds, hAfter, hAccepted⟩ | ⟨hAfter, hAccepted⟩ :=
      d.cons_cases declaration declarations
    · rw [hAfter, hAccepted]
      exact (ih d').cons hAdds
    · rw [hAfter, hAccepted]
      exact ih d

/-- What is accepted has been declared. -/
theorem mem_of_mem_accepted {tried : Declaration × Option Nat}
    (h : tried ∈ d.accepted declarations) : tried.1 ∈ declarations := by
  obtain ⟨⟨_, answer⟩, hMem, hEq⟩ := List.mem_filterMap.mp h
  cases answer with
  | error e => cases hEq
  | ok answer => cases hEq; exact (List.of_mem_zip hMem).1

end Draft

end ShiftReduce
