import ShiftReduce.Grammar.Basic
import ShiftReduce.OrdSet.Lemmas

/-!
# Items

An item is a rule with a marker in its right-hand side and a lookahead; without
the lookahead it is a core. An item set is kept as one increasing list of
items, so it holds no core without a lookahead, and two item sets with the same
items are equal. `ItemSet.entries` groups the items by cores.
-/

namespace ShiftReduce

/-! ## Cores and items -/

/-- A rule with a marker: that many symbols of its right-hand side are
recognised. -/
structure Core where
  rule : RuleId
  marker : Nat
  deriving DecidableEq, Repr

/-- A core with a lookahead. -/
structure Item where
  core : Core
  lookahead : Terminal
  deriving DecidableEq, Repr

/-- Cores are ordered by rule, then by marker. -/
instance : Ord Core := ⟨compareLex (compareOn Core.rule) (compareOn Core.marker)⟩

/-- Items are ordered by core, then by lookahead. -/
instance : Ord Item := ⟨compareLex (compareOn Item.core) (compareOn Item.lookahead)⟩

instance : Std.TransOrd Core :=
  inferInstanceAs (Std.TransCmp (compareLex (compareOn Core.rule) (compareOn Core.marker)))

instance : Std.LawfulEqOrd Core where
  compare_self {a} := show compareLex (compareOn Core.rule) (compareOn Core.marker) a a = .eq from
    Std.ReflCmp.compare_self
  eq_of_compare {a b} h := by
    obtain ⟨h1, h2⟩ := Ordering.then_eq_eq.1 (show (compare a.rule b.rule).then
      (compare a.marker b.marker) = .eq from h)
    cases a; cases b
    simp only [Core.mk.injEq]
    exact ⟨Std.LawfulEqOrd.eq_of_compare h1, Std.LawfulEqOrd.eq_of_compare h2⟩

instance : Std.TransOrd Item :=
  inferInstanceAs (Std.TransCmp (compareLex (compareOn Item.core) (compareOn Item.lookahead)))

instance : Std.LawfulEqOrd Item where
  compare_self {a} := show compareLex (compareOn Item.core) (compareOn Item.lookahead) a a = .eq
    from Std.ReflCmp.compare_self
  eq_of_compare {a b} h := by
    obtain ⟨h1, h2⟩ := Ordering.then_eq_eq.1 (show (compare a.core b.core).then
      (compare a.lookahead b.lookahead) = .eq from h)
    cases a; cases b
    simp only [Item.mk.injEq]
    exact ⟨Std.LawfulEqOrd.eq_of_compare h1, Std.LawfulEqOrd.eq_of_compare h2⟩

theorem Core.compare_eq_lt {core core' : Core} : compare core core' = .lt ↔
    core.rule < core'.rule ∨ core.rule = core'.rule ∧ core.marker < core'.marker := by
  change (compare core.rule core'.rule).then (compare core.marker core'.marker) = .lt ↔ _
  rw [Ordering.then_eq_lt, Nat.compare_eq_lt, Nat.compare_eq_eq, Nat.compare_eq_lt]

theorem Item.compare_eq_lt {i j : Item} : compare i j = .lt ↔
    compare i.core j.core = .lt ∨ i.core = j.core ∧ i.lookahead < j.lookahead := by
  change (compare i.core j.core).then (compare i.lookahead j.lookahead) = .lt ↔ _
  rw [Ordering.then_eq_lt, Std.LawfulEqOrd.compare_eq_iff_eq, Nat.compare_eq_lt]

namespace Core

variable (g : Grammar) (core : Core)

/-- What remains to be recognised of the rule. -/
def rest : List Symbol := (g.rules[core.rule]?).elim [] fun rule => rule.right.drop core.marker

def next : Option Symbol := (core.rest g).head?

def advance : Core := { core with marker := core.marker + 1 }

def Known : Prop := core.rule < g.rules.size

instance : Decidable (core.Known g) := inferInstanceAs (Decidable (_ < _))

/-- Whether the grammar has the rule and the marker is not beyond its end. -/
def Fits : Prop := (g.rules[core.rule]?).any (fun rule => core.marker ≤ rule.right.length) = true

instance : Decidable (core.Fits g) := inferInstanceAs (Decidable (_ = _))

/-- Whether nothing remains to be recognised of a rule of the grammar. -/
def isComplete : Bool := decide (core.Known g) && (core.rest g).isEmpty

variable {g core}

theorem rest_eq_drop {rule : Rule} (hr : g.rules[core.rule]? = some rule) :
    core.rest g = rule.right.drop core.marker := by
  rw [rest, hr, Option.elim_some]

theorem rest_mk {r : RuleId} {rule : Rule} (hr : g.rules[r]? = some rule) (marker : Nat) :
    (⟨r, marker⟩ : Core).rest g = rule.right.drop marker :=
  rest_eq_drop hr

/-- Only a core of a rule of the grammar has something left. -/
theorem exists_rule_of_rest {X : Symbol} {tail : List Symbol} (h : core.rest g = X :: tail) :
    ∃ rule, g.rules[core.rule]? = some rule ∧ rule.right.drop core.marker = X :: tail := by
  cases hr : g.rules[core.rule]? with
  | none => simp [rest, hr] at h
  | some rule => exact ⟨rule, rfl, rest_eq_drop hr ▸ h⟩

theorem next_eq_some_iff {X : Symbol} : core.next g = some X ↔ ∃ tail, core.rest g = X :: tail := by
  rw [next, List.head?_eq_some_iff]

theorem next_of_rest {X : Symbol} {tail : List Symbol} (h : core.rest g = X :: tail) :
    core.next g = some X :=
  next_eq_some_iff.mpr ⟨tail, h⟩

/-- What remains after a part of what remained. -/
theorem rest_add {front tail : List Symbol} (h : core.rest g = front ++ tail) :
    (⟨core.rule, core.marker + front.length⟩ : Core).rest g = tail := by
  cases hr : g.rules[core.rule]? with
  | none =>
    rw [rest, hr, Option.elim_none, eq_comm, List.append_eq_nil_iff] at h
    rw [rest, hr, Option.elim_none, h.2]
  | some rule =>
    rw [rest_eq_drop hr] at h
    rw [rest_mk hr, ← List.drop_drop, h, List.drop_left]

theorem rest_advance {X : Symbol} {tail : List Symbol} (h : core.rest g = X :: tail) :
    core.advance.rest g = tail := by
  rw [← List.singleton_append] at h
  exact rest_add h

/-- What has been recognised one symbol further. -/
theorem take_advance {rule : Rule} {X : Symbol} (hr : g.rules[core.rule]? = some rule)
    (h : core.next g = some X) :
    rule.right.take (core.marker + 1) = rule.right.take core.marker ++ [X] := by
  rw [next, rest_eq_drop hr, List.head?_drop] at h
  rw [List.take_add_one, h, Option.toList_some]

theorem isComplete_iff : core.isComplete g = true ↔ core.Known g ∧ core.rest g = [] := by
  simp [isComplete]

end Core

/-! ## Item sets -/

abbrev ItemSet := OrdSet Item

namespace ItemSet

def cores (s : ItemSet) : OrdSet Core := OrdSet.ofList (s.toList.map fun i => i.core)

def lookaheads (s : ItemSet) (core : Core) : OrdSet Terminal :=
  OrdSet.ofList ((s.toList.filter fun i => i.core = core).map fun i => i.lookahead)

def lookaheads? (s : ItemSet) (core : Core) : Option (OrdSet Terminal) :=
  if core ∈ s.cores then some (s.lookaheads core) else none

/-- The cores in order, each with its lookaheads. -/
def entries (s : ItemSet) : List (Core × OrdSet Terminal) :=
  s.cores.toList.map fun core => (core, s.lookaheads core)

def ofCore (core : Core) (lookaheads : OrdSet Terminal) : ItemSet :=
  OrdSet.ofList (lookaheads.toList.map fun t => ⟨core, t⟩)

/-- Adds a core with several lookaheads, and says whether the set has grown. -/
def insertAll (s : ItemSet) (core : Core) (lookaheads : OrdSet Terminal) : Bool × ItemSet :=
  s.absorb (ofCore core lookaheads)

/-- Item sets are compared entry by entry: cores first, then the lookaheads of
equal cores; a set that ends first is less. -/
def compareEntries (s t : ItemSet) : Ordering :=
  List.compareLex (compareLex (compareOn Prod.fst) (compareOn Prod.snd)) s.entries t.entries

def Known (g : Grammar) (s : ItemSet) : Prop := ∀ i ∈ s.toList, i.core.Known g

instance (g : Grammar) (s : ItemSet) : Decidable (s.Known g) :=
  inferInstanceAs (Decidable (∀ i ∈ s.toList, _))

def Fits (g : Grammar) (s : ItemSet) : Prop := ∀ i ∈ s.toList, i.core.Fits g

instance (g : Grammar) (s : ItemSet) : Decidable (s.Fits g) :=
  inferInstanceAs (Decidable (∀ i ∈ s.toList, _))

/-! ## Cores, lookaheads and items -/

@[simp] theorem mem_cores {s : ItemSet} {core : Core} :
    core ∈ s.cores ↔ ∃ t, (⟨core, t⟩ : Item) ∈ s := by
  simp only [cores, OrdSet.mem_ofList, List.mem_map, OrdSet.mem_toList]
  constructor
  · rintro ⟨⟨c, t⟩, h, rfl⟩
    exact ⟨t, h⟩
  · rintro ⟨t, h⟩
    exact ⟨_, h, rfl⟩

@[simp] theorem mem_lookaheads {s : ItemSet} {core : Core} {t : Terminal} :
    t ∈ s.lookaheads core ↔ (⟨core, t⟩ : Item) ∈ s := by
  simp only [lookaheads, OrdSet.mem_ofList, List.mem_map, List.mem_filter, OrdSet.mem_toList,
    decide_eq_true_iff]
  constructor
  · rintro ⟨⟨c, u⟩, ⟨h, rfl⟩, rfl⟩
    exact h
  · exact fun h => ⟨_, ⟨h, rfl⟩, rfl⟩

end ItemSet

end ShiftReduce
