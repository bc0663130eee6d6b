import Mathlib.Data.List.Induction
import Mathlib.Data.List.Infix
import ShiftReduce.Reachable

/-!
# The order of discovery

A search expands what it finds in the order of finding it, so that its result solves an equation
in which it occurs itself: it is what it started from, followed by the successors of its own
elements in order, each element once (`reachable_eq`). This module is about the places where an
element is listed as a successor.

* `exists_lists_lt`: wherever an element is listed, each element that stands before it in the
  result is listed at an earlier place, so first places are in the order of discovery. The equation
  is enough for this.
* `exists_lists_before`: an element that the search did not start from is a successor of an
  element found before it. The equation alone does not say so, since an element could be its own
  successor and nothing else's; this is an invariant of the search.
-/

namespace ShiftReduce

/-! ## First occurrences -/

section Lists

variable {α : Type} {l m : List α} {a b : α} {i j : Nat}

theorem eraseDups_filter [DecidableEq α] (p : α → Bool) (l : List α) :
    (l.filter p).eraseDups = l.eraseDups.filter p := by
  induction l using List.reverseRecOn with
  | nil => rfl
  | append_singleton l x ih =>
    rw [List.filter_append, List.eraseDups_append, List.eraseDups_append, List.filter_append, ih]
    congr 1
    by_cases hx : x ∈ l <;> by_cases hp : p x <;>
      simp [List.removeAll, hx, hp, List.eraseDups_cons]

theorem eraseDups_of_nodup [BEq α] [LawfulBEq α] (h : l.Nodup) :
    l.eraseDups = l := by
  induction l with
  | nil => rfl
  | cons a l ih =>
    rw [List.nodup_cons] at h
    have hOthers : l.filter (fun b => !b == a) = l := by
      refine List.filter_eq_self.mpr fun b hb => ?_
      have hNe : b ≠ a := fun hEq => h.1 (hEq ▸ hb)
      simpa using hNe
    rw [List.eraseDups_cons, hOthers, ih h.2]

theorem prefix_eraseDups [DecidableEq α] (h : l <+: m) : l.eraseDups <+: m.eraseDups := by
  obtain ⟨rest, rfl⟩ := h
  rw [List.eraseDups_append]
  exact List.prefix_append _ _

/-- What begins a list without repetitions holds with an element also those before it. -/
theorem mem_of_prefix (h : l <+: m) (hNodup : m.Nodup) (hb : b ∈ l) (hj : m[j]? = some b)
    (hi : m[i]? = some a) (hLe : i ≤ j) : a ∈ l := by
  obtain ⟨j', hj', rfl⟩ := List.mem_iff_getElem.mp hb
  have hSame : m[j']? = m[j]? := by rw [hj, List.prefix_iff_getElem?.mp h j' hj']
  have hLt : j' < m.length := Nat.lt_of_lt_of_le hj' h.length_le
  rw [List.getElem?_inj hLt hNodup] at hSame
  have hi' : i < l.length := by omega
  rw [List.prefix_iff_getElem?.mp h i hi', Option.some_inj] at hi
  exact hi ▸ List.getElem_mem hi'

end Lists

/-! ## Places -/

section Places

variable {α : Type} {next : α → List α} {found : List α} {a b c : α} {p p' e e' : Nat}

/-- Whether an element is the successor at place `e` of the element found at place `p`. -/
def Lists (next : α → List α) (found : List α) (p e : Nat) (a : α) : Prop :=
  ∃ c, found[p]? = some c ∧ (next c)[e]? = some a

theorem Lists.of_mem (hc : found[p]? = some c) (ha : a ∈ next c) :
    ∃ e, Lists next found p e a := by
  obtain ⟨e, he⟩ := List.mem_iff_getElem?.mp ha
  exact ⟨e, c, hc, he⟩

theorem Lists.inj (ha : Lists next found p e a) (hb : Lists next found p e b) : a = b := by
  obtain ⟨c, hc, ha⟩ := ha
  obtain ⟨c', hc', hb⟩ := hb
  cases hc.symm.trans hc'
  exact Option.some_inj.mp (ha.symm.trans hb)

/-- The successors at the places before the given one. -/
def listedBefore (next : α → List α) (found : List α) (p e : Nat) : List α :=
  (found.take p).flatMap next ++ ((found[p]?).elim [] next).take e

theorem mem_listedBefore : a ∈ listedBefore next found p e ↔
    ∃ p' e', Lists next found p' e' a ∧ (p' < p ∨ p' = p ∧ e' < e) := by
  rw [listedBefore, List.mem_append, List.mem_flatMap]
  constructor
  · rintro (⟨c, hc, ha⟩ | ha)
    · obtain ⟨p', hp', rfl⟩ := List.mem_iff_getElem.mp hc
      rw [List.length_take, Nat.lt_min] at hp'
      rw [List.getElem_take] at ha
      obtain ⟨e', hPlace⟩ := Lists.of_mem (List.getElem?_eq_getElem hp'.2) ha
      exact ⟨p', e', hPlace, .inl hp'.1⟩
    · obtain ⟨e', he'⟩ := List.mem_iff_getElem?.mp ha
      rw [List.getElem?_take, Option.ite_none_right_eq_some] at he'
      cases hc : found[p]? with
      | none => simp [hc] at he'
      | some c =>
        rw [hc, Option.elim_some] at he'
        exact ⟨p, e', ⟨c, hc, he'.2⟩, .inr ⟨rfl, he'.1⟩⟩
  · rintro ⟨p', e', ⟨c, hc, ha⟩, hp | ⟨rfl, he⟩⟩
    · refine .inl ⟨c, List.mem_of_getElem? (i := p') ?_, List.mem_of_getElem? ha⟩
      rw [List.getElem?_take_of_lt hp, hc]
    · refine .inr (List.mem_of_getElem? (i := e') ?_)
      rw [hc, Option.elim_some, List.getElem?_take_of_lt he, ha]

theorem listedBefore_prefix : listedBefore next found p e <+: found.flatMap next := by
  rw [listedBefore]
  cases hc : found[p]? with
  | none =>
    rw [List.take_of_length_le (List.getElem?_eq_none_iff.mp hc)]
    simp
  | some c =>
    obtain ⟨hLt, rfl⟩ := List.getElem?_eq_some_iff.mp hc
    have hWhole : found.take p ++ found[p] :: found.drop (p + 1) = found := by
      rw [List.getElem_cons_drop, List.take_append_drop]
    conv => rhs; rw [← hWhole]
    rw [List.flatMap_append, List.flatMap_cons, Option.elim_some]
    refine List.prefix_append_right_inj _ |>.mpr ?_
    exact (List.take_prefix _ _).trans (List.prefix_append _ _)

/-- In a solution of the equation, elements stand in the order of the places that list them. What
is listed up to the place of the later element begins the list of all successors, and so it holds
the earlier one too. -/
theorem exists_lists_lt [DecidableEq α] {start : List α} {i j : Nat}
    (hEq : found = (start ++ found.flatMap next).eraseDups) (ha : found[i]? = some a)
    (hb : found[j]? = some b) (hLt : i < j) (hNew : a ∉ start)
    (hPlace : Lists next found p e b) :
    ∃ p' e', Lists next found p' e' a ∧ (p' < p ∨ p' = p ∧ e' < e) := by
  have hNodup : found.Nodup := by
    rw [hEq]
    exact nodup_eraseDups _
  have hPrefix : (start ++ listedBefore next found p (e + 1)).eraseDups <+: found := by
    conv => rhs; rw [hEq]
    exact prefix_eraseDups ((List.prefix_append_right_inj _).mpr listedBefore_prefix)
  have hListed : b ∈ listedBefore next found p (e + 1) :=
    mem_listedBefore.mpr ⟨p, e, hPlace, .inr ⟨rfl, Nat.lt_succ_self e⟩⟩
  have hMem : b ∈ (start ++ listedBefore next found p (e + 1)).eraseDups :=
    List.mem_eraseDups.mpr (List.mem_append_right _ hListed)
  have hEarlier := mem_of_prefix hPrefix hNodup hMem hb ha (Nat.le_of_lt hLt)
  rw [List.mem_eraseDups, List.mem_append, or_iff_right hNew] at hEarlier
  obtain ⟨p', e', hPlace', hBefore⟩ := mem_listedBefore.mp hEarlier
  refine ⟨p', e', hPlace', hBefore.imp_right ?_⟩
  rintro ⟨rfl, hLe⟩
  -- The place itself lists the later element, and no other.
  have hNe : e' ≠ e := by
    rintro rfl
    have hSame : found[i]? = found[j]? := by rw [ha, hb, hPlace'.inj hPlace]
    have hi := (List.getElem?_eq_some_iff.mp ha).1
    exact Nat.ne_of_lt hLt ((List.getElem?_inj hi hNodup).mp hSame)
  exact ⟨rfl, by omega⟩

end Places

/-! ## The search -/

section Search

variable {α : Type} [DecidableEq α] {next : α → List α} {n : Nat} {P : α → Prop}
  {bound : AtMost n P} {closed : ∀ a, P a → ∀ b ∈ next a, P b} {start : List α}
  {within : ∀ a ∈ start, P a} {a : α} {i : Nat}

theorem unseen_eq {found l : List α} (hSame : ∀ b, b ∈ found ↔ b ∈ l) :
    unseen next found a = ((next a).removeAll l).eraseDups := by
  rw [unseen, List.removeAll, eraseDups_filter]
  refine List.filter_congr fun b _ => ?_
  simp [hSame]

/-- At each step the elements found are the first occurrences among the starting elements and
the successors of those that have been expanded. -/
theorem discover_eq (done todo : List α) (distinct : (done ++ todo).Nodup)
    (within : ∀ a ∈ done ++ todo, P a)
    (h : done ++ todo = (start ++ done.flatMap next).eraseDups) :
    discover next bound closed done todo distinct within = (start ++
      (discover next bound closed done todo distinct within).flatMap next).eraseDups := by
  fun_induction discover next bound closed done todo distinct within with
  | case1 done => simpa using h
  | case2 done a rest distinct within split _ _ ih =>
    apply ih
    have hSame : ∀ b, b ∈ done ++ a :: rest ↔ b ∈ start ++ done.flatMap next := by
      intro b
      rw [h, List.mem_eraseDups]
    rw [split, unseen_eq hSame, h, ← List.eraseDups_append, List.append_assoc,
      List.flatMap_append, List.flatMap_singleton]

/-- The equation that the result of a search solves. -/
theorem reachable_eq : reachable next bound closed start within =
    (start ++ (reachable next bound closed start within).flatMap next).eraseDups :=
  discover_eq _ _ _ _ (by simp)

/-- In each step of the search an element is added only after the one that lists it. -/
theorem lists_before_discover (done todo : List α) (distinct : (done ++ todo).Nodup)
    (within : ∀ a ∈ done ++ todo, P a)
    (h : ∀ i a, (done ++ todo)[i]? = some a → a ∉ start →
      ∃ p < i, ∃ e, Lists next (done ++ todo) p e a) :
    ∀ i a, (discover next bound closed done todo distinct within)[i]? = some a → a ∉ start →
      ∃ p < i, ∃ e, Lists next (discover next bound closed done todo distinct within) p e a := by
  fun_induction discover next bound closed done todo distinct within with
  | case1 done => simpa using h
  | case2 done a rest distinct within split _ _ ih =>
    apply ih
    rw [split]
    intro i b hi hNew
    by_cases hOld : i < (done ++ a :: rest).length
    · rw [List.getElem?_append_left hOld] at hi
      obtain ⟨p, hp, e, c, hc, he⟩ := h i b hi hNew
      rw [← List.getElem?_append_left (Nat.lt_trans hp hOld)] at hc
      exact ⟨p, hp, e, c, hc, he⟩
    · -- It has been added in this step, as a successor of the element that was expanded.
      rw [List.getElem?_append_right (Nat.le_of_not_lt hOld)] at hi
      have hb : b ∈ next a := (mem_unseen.mp (List.mem_of_getElem? hi)).1
      have hPlace : (done ++ a :: rest ++ unseen next (done ++ a :: rest) a)[done.length]? =
          some a := by
        rw [List.append_assoc, List.getElem?_append_right (Nat.le_refl _), Nat.sub_self]
        rfl
      rw [List.length_append, List.length_cons] at hOld
      exact ⟨done.length, by omega, Lists.of_mem hPlace hb⟩

/-- What the search did not start from is listed by something found before. -/
theorem exists_lists_before (ha : (reachable next bound closed start within)[i]? = some a)
    (hNew : a ∉ start) :
    ∃ p < i, ∃ e, Lists next (reachable next bound closed start within) p e a := by
  refine lists_before_discover _ _ _ _ ?_ i a ha hNew
  intro i b hb hNew
  have hStart : b ∈ start := List.mem_eraseDups.mp (List.mem_of_getElem? hb)
  exact absurd hStart hNew

/-! ## Searches that list the same successors -/

variable {next' : α → List α} {n' : Nat} {P' Q : α → Prop} {bound' : AtMost n' P'}
  {closed' : ∀ a, P' a → ∀ b ∈ next' a, P' b}

theorem discover_congr (hNext : ∀ a, Q a → next' a = next a)
    (hClosed : ∀ a, Q a → ∀ b ∈ next a, Q b) (done todo : List α)
    (distinct : (done ++ todo).Nodup) (within : ∀ a ∈ done ++ todo, P a)
    (within' : ∀ a ∈ done ++ todo, P' a) (hTodo : ∀ a ∈ todo, Q a) :
    discover next' bound' closed' done todo distinct within' =
      discover next bound closed done todo distinct within := by
  fun_induction discover next bound closed done todo distinct within with
  | case1 done => rw [discover]
  | case2 done a rest distinct within split _ _ ih =>
    rw [List.forall_mem_cons] at hTodo
    have hUnseen : unseen next' (done ++ a :: rest) a = unseen next (done ++ a :: rest) a := by
      rw [unseen, unseen, hNext a hTodo.1]
    rw [discover]
    simp only [hUnseen]
    refine ih _ fun b hb => ?_
    rcases List.mem_append.mp hb with hb | hb
    · exact hTodo.2 b hb
    · exact hClosed a hTodo.1 b (mem_unseen.mp hb).1

/-- Two searches find the same in the same order if they list the same successors of all that
can be found. -/
theorem reachable_congr (hNext : ∀ a, Q a → next' a = next a)
    (hClosed : ∀ a, Q a → ∀ b ∈ next a, Q b) (hStart : ∀ a ∈ start, Q a)
    {within' : ∀ a ∈ start, P' a} :
    reachable next' bound' closed' start within' = reachable next bound closed start within :=
  discover_congr hNext hClosed _ _ _ _ _ fun a ha => hStart a (List.mem_eraseDups.mp ha)

end Search

end ShiftReduce
