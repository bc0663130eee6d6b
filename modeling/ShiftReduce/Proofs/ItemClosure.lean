import ShiftReduce.Grammar.Draft
import ShiftReduce.Item.Closure
import ShiftReduce.Proofs.DiscoveryOrder
import ShiftReduce.Proofs.FirstSets
import ShiftReduce.Worklist

/-!
# What closure and goto do to item sets

The closure of an item set is the least closed set that contains it, and what it holds is found
from one item at a time: an item predicts the same in every set. So closure and `goto` respect
unions, and no item is lost or gained by closing twice.

* `ItemSet.closed_iff`: an item set is closed if each of its items finds there what it predicts.
* `closure_closed`, `closure_least`: the closure is the least such set with the given items.
* `closure_union`, `goto_union`: what comes from two sets together comes from one of them.
* `exists_reaches_of_core`: an item predicts something or not whatever its lookahead is, since
  FIRST sets of a sequence with something behind it are empty only where no lookahead helps. The
  cores of closures and of `goto` therefore depend on cores alone.
* `Worklist.turns?_discover`: the loop over a worklist is the search that `closure` is defined by.
  It makes one turn for each item that it finds.
-/

namespace ShiftReduce

/-! ## Worklists -/

namespace Worklist

variable {α : Type} [Ord α] [Std.TransOrd α] [Std.LawfulEqOrd α] [DecidableEq α]
  {next : α → List α} {list : Worklist α}

theorem mem_found_foldl_add {l : List α} {b : α} :
    b ∈ (l.foldl add list).found ↔ b ∈ list.found ∨ b ∈ l := by
  induction l generalizing list with
  | nil => simp
  | cons a l ih =>
    rw [List.foldl_cons, ih, add, OrdSet.insertNew, OrdSet.mem_insert, List.mem_cons,
      or_comm (a := b = a), or_assoc]

/-- Those that are new wait behind the others, each of them once. -/
theorem waiting_foldl_add (l : List α) :
    (l.foldl add list).waiting = list.waiting ++ l.eraseDups.filter fun b => b ∉ list.found := by
  induction l generalizing list with
  | nil => simp
  | cons a l ih =>
    rw [List.foldl_cons, ih, List.eraseDups_cons, eraseDups_filter]
    by_cases ha : a ∈ list.found
    · have hAdd : list.add a = ⟨list.found.insert a, list.waiting⟩ := by
        simp [add, OrdSet.insertNew, ha]
      rw [hAdd, List.filter_cons_of_neg (by simpa using ha), List.filter_filter]
      congr 1
      refine List.filter_congr fun b _ => ?_
      by_cases hb : b = a <;> simp [hb]
    · have hAdd : list.add a = ⟨list.found.insert a, list.waiting ++ [a]⟩ := by
        simp [add, OrdSet.insertNew, ha]
      rw [hAdd, List.filter_cons_of_pos (by simpa using ha), List.filter_filter,
        List.append_assoc, List.singleton_append]
      congr 2
      refine List.filter_congr fun b _ => ?_
      by_cases hb : b = a <;> simp [hb]

/-- In each turn the loop is where the search is: what it has found is what the search has expanded
or has still to expand. -/
theorem turns?_discover {n : Nat} {P : α → Prop} {bound : AtMost n P}
    {closed : ∀ a, P a → ∀ b ∈ next a, P b} (done todo : List α)
    (distinct : (done ++ todo).Nodup) (within : ∀ a ∈ done ++ todo, P a) {found : OrdSet α}
    (hFound : ∀ b, b ∈ found ↔ b ∈ done ++ todo) {m : Nat}
    (hLength : m + done.length = (discover next bound closed done todo distinct within).length) :
    turns? next m ⟨found, todo⟩ =
      some ⟨OrdSet.ofList (discover next bound closed done todo distinct within), []⟩ := by
  fun_induction discover next bound closed done todo distinct within generalizing found m with
  | case1 done =>
    have hNone : m = 0 := by omega
    have hSame : found = OrdSet.ofList done := OrdSet.ext fun b => by simp [hFound]
    rw [hNone, hSame, turns?]
  | case2 done a rest distinct within split _ _ ih =>
    have hPrefix : (done ++ [a] ++ (rest ++ unseen next (done ++ a :: rest) a)).length ≤
        m + done.length := by
      rw [hLength]
      exact (prefix_discover _ _ _ _).length_le
    simp only [List.length_append, List.length_singleton] at hPrefix
    obtain ⟨k, rfl⟩ : ∃ k, m = k + 1 := ⟨m - 1, by omega⟩
    have hWaiting : ((next a).foldl add ⟨found, rest⟩).waiting =
        rest ++ unseen next (done ++ a :: rest) a := by
      rw [waiting_foldl_add, unseen]
      congr 1
      exact List.filter_congr fun b _ => by simp [hFound]
    have hTurn : turn? next ⟨found, a :: rest⟩ = some ⟨((next a).foldl add ⟨found, rest⟩).found,
        rest ++ unseen next (done ++ a :: rest) a⟩ := by
      rw [turn?, ← hWaiting]
    rw [turns?, hTurn, Option.bind_some]
    refine ih (fun b => ?_) ?_
    · rw [mem_found_foldl_add, hFound, split, List.mem_append (s := done ++ a :: rest), mem_unseen]
      tauto
    · rw [List.length_append, List.length_singleton]
      omega

/-- From a set, the loop comes to its end after one turn for each element of what is reachable. -/
theorem turns?_reachable {n : Nat} {P : α → Prop} {bound : AtMost n P}
    {closed : ∀ a, P a → ∀ b ∈ next a, P b} {s : OrdSet α} {within : ∀ a ∈ s.toList, P a} :
    turns? next (OrdSet.ofList (reachable next bound closed s.toList within)).size (ofSet s) =
      some ⟨OrdSet.ofList (reachable next bound closed s.toList within), []⟩ := by
  have hOnce : ofSet s = ⟨s, s.toList.eraseDups⟩ := by
    rw [ofSet, eraseDups_of_nodup s.nodup]
  rw [hOnce, OrdSet.size_ofList nodup_reachable]
  refine turns?_discover [] s.toList.eraseDups _ _ (fun b => ?_) rfl
  rw [List.nil_append, List.mem_eraseDups, OrdSet.mem_toList]

end Worklist

/-! ## Closed item sets -/

/-- Whether an item set holds, with each item before a nonterminal, the rules of that nonterminal
from their beginning, with every lookahead that can follow the nonterminal there. -/
def ItemSet.Closed (s : ItemSet) (g : Grammar) (F : FirstSets) : Prop :=
  ∀ (r p : RuleId) (rule below : Rule) (front rest : List Symbol) (a b : Terminal),
    g.rules[r]? = some rule → rule.right = front ++ .nonterminal below.left :: rest →
    g.rules[p]? = some below → (⟨⟨r, front.length⟩, a⟩ : Item) ∈ s →
    b ∈ F.ofSequenceThen rest a → (⟨⟨p, 0⟩, b⟩ : Item) ∈ s

theorem ItemSet.closed_iff {s : ItemSet} {g : Grammar} {F : FirstSets} :
    s.Closed g F ↔ ∀ i ∈ s, ∀ j ∈ g.predicts F i, j ∈ s := by
  constructor
  · rintro hClosed ⟨⟨r, m⟩, a⟩ hi ⟨⟨p, m'⟩, b⟩ hj
    obtain ⟨n, rest, hRest, hp, hm, hb⟩ := (g.mem_predicts F).mp hj
    obtain ⟨rule, hr, hDrop⟩ := Core.exists_rule_of_rest hRest
    obtain ⟨below, hBelow, rfl⟩ := g.mem_rulesOf.mp hp
    dsimp only at hr hDrop hm hBelow hb
    subst hm
    have hLt : m < rule.right.length := by
      refine Nat.lt_of_not_le fun hLe => ?_
      rw [List.drop_of_length_le hLe] at hDrop
      cases hDrop
    have hFront : (rule.right.take m).length = m := List.length_take_of_le (Nat.le_of_lt hLt)
    have hRight : rule.right = rule.right.take m ++ .nonterminal below.left :: rest := by
      rw [← hDrop, List.take_append_drop]
    refine hClosed r p rule below (rule.right.take m) rest a b hr hRight hBelow ?_ hb
    rw [hFront]
    exact hi
  · intro hClosed r p rule below front rest a b hr hRight hBelow hMem hb
    refine hClosed _ hMem _ ((g.mem_predicts F).mpr ⟨below.left, rest, ?_, ?_, rfl, hb⟩)
    · rw [Core.rest_mk hr, hRight, List.drop_left]
    · exact g.mem_rulesOf.mpr ⟨below, hBelow, rfl⟩

namespace Grammar

variable {g : Grammar} {F : FirstSets} {s t : ItemSet} {X : Symbol} {i j : Item}

theorem subset_closure : s ⊆ g.closure F s :=
  fun i hi => (g.mem_closure F).mpr ⟨i, hi, .refl⟩

theorem closure_closed (hi : i ∈ g.closure F s) (hj : j ∈ g.predicts F i) :
    j ∈ g.closure F s := by
  rw [mem_closure] at hi ⊢
  obtain ⟨k, hk, hki⟩ := hi
  exact ⟨k, hk, hki.tail hj⟩

/-- Nothing is in the closure that is not in every closed set with the same items. -/
theorem closure_least (hSubset : s ⊆ t) (hClosed : ∀ i ∈ t, ∀ j ∈ g.predicts F i, j ∈ t) :
    g.closure F s ⊆ t :=
  g.forall_mem_closure F hSubset hClosed

theorem closure_closure : g.closure F (g.closure F s) = g.closure F s := by
  apply OrdSet.subset_antisymm
  · exact closure_least (OrdSet.subset_refl _) fun _ hi _ hj => closure_closed hi hj
  · exact subset_closure

/-! ## Unions -/

theorem closure_union : g.closure F (s ∪ t) = g.closure F s ∪ g.closure F t := by
  refine OrdSet.ext fun j => ?_
  simp only [OrdSet.mem_union, mem_closure, or_and_right, exists_or]

theorem shifted_union : g.shifted (s ∪ t) X = g.shifted s X ∪ g.shifted t X := by
  refine OrdSet.ext fun j => ?_
  simp only [OrdSet.mem_union, mem_shifted, or_and_right, exists_or]

theorem goto_union : g.goto F (s ∪ t) X = g.goto F s X ∪ g.goto F t X := by
  rw [goto, shifted_union, closure_union]
  rfl

/-! ## Cores -/

/-- Which cores an item leads to does not depend on its lookahead: whether
anything is predicted at all is decided by the symbols after the marker. -/
theorem exists_reaches_of_core (h : Reaches (g.predicts F) i j) (i' : Item)
    (hi : i'.core = i.core) : ∃ j', Reaches (g.predicts F) i' j' ∧ j'.core = j.core := by
  induction h with
  | refl => exact ⟨i', .refl, hi⟩
  | tail _ hs ih =>
    obtain ⟨k, hk, hCore⟩ := ih
    obtain ⟨n, tail, hRest, hn, hm, hb⟩ := (g.mem_predicts _).mp hs
    obtain ⟨u, hu⟩ := FirstSets.exists_mem_ofSequenceThen hb k.lookahead
    refine ⟨⟨_, u⟩, hk.tail ((g.mem_predicts _).mpr ⟨n, tail, ?_, hn, hm, hu⟩), rfl⟩
    rw [hCore, hRest]

theorem cores_closure_subset (h : s.cores ⊆ t.cores) :
    (g.closure F s).cores ⊆ (g.closure F t).cores := by
  intro core hCore
  obtain ⟨b, hb⟩ := ItemSet.mem_cores.mp hCore
  obtain ⟨i, hi, hReaches⟩ := (g.mem_closure F).mp hb
  obtain ⟨u, hu⟩ := ItemSet.mem_cores.mp (h _ (ItemSet.mem_cores.mpr ⟨i.lookahead, hi⟩))
  obtain ⟨j, hj, hjCore⟩ := exists_reaches_of_core hReaches ⟨i.core, u⟩ rfl
  refine ItemSet.mem_cores.mpr ⟨j.lookahead, ?_⟩
  rw [← show j.core = core from hjCore]
  exact (g.mem_closure F).mpr ⟨_, hu, hj⟩

theorem cores_shifted_subset (h : s.cores ⊆ t.cores) :
    (g.shifted s X).cores ⊆ (g.shifted t X).cores := by
  intro core hCore
  obtain ⟨b, hb⟩ := ItemSet.mem_cores.mp hCore
  obtain ⟨i, hi, hX, hEq⟩ := g.mem_shifted.mp hb
  obtain ⟨u, hu⟩ := ItemSet.mem_cores.mp (h _ (ItemSet.mem_cores.mpr ⟨i.lookahead, hi⟩))
  obtain ⟨rfl, _⟩ := Item.mk.inj hEq
  exact ItemSet.mem_cores.mpr ⟨u, g.mem_shifted.mpr ⟨_, hu, hX, rfl⟩⟩

theorem cores_goto_subset (h : s.cores ⊆ t.cores) :
    (g.goto F s X).cores ⊆ (g.goto F t X).cores :=
  cores_closure_subset (cores_shifted_subset h)

theorem cores_closure_congr (h : s.cores = t.cores) :
    (g.closure F s).cores = (g.closure F t).cores :=
  OrdSet.subset_antisymm (cores_closure_subset (h ▸ OrdSet.subset_refl _))
    (cores_closure_subset (h ▸ OrdSet.subset_refl _))

/-- The cores of `goto` depend on the cores alone. -/
theorem cores_goto_congr (h : s.cores = t.cores) :
    (g.goto F s X).cores = (g.goto F t X).cores :=
  OrdSet.subset_antisymm (cores_goto_subset (h ▸ OrdSet.subset_refl _))
    (cores_goto_subset (h ▸ OrdSet.subset_refl _))

/-! ## Item sets that fit the grammar -/

theorem fits_closure (hs : s.Fits g) : (g.closure F s).Fits g := by
  refine g.forall_mem_closure F hs fun i _ j hStep => ?_
  obtain ⟨_, _, _, hp, hm, _⟩ := (g.mem_predicts F).mp hStep
  obtain ⟨rule, hRule, _⟩ := g.mem_rulesOf.mp hp
  simp [Core.Fits, hRule, hm]

theorem fits_union (hs : s.Fits g) (ht : t.Fits g) : (s ∪ t).Fits g := by
  intro i hi
  rcases OrdSet.mem_union.mp hi with hi | hi
  · exact hs i hi
  · exact ht i hi

theorem known_of_fits (hs : s.Fits g) : s.Known g := by
  intro i hi
  obtain ⟨rule, hRule, _⟩ := (Option.any_eq_true _ _).mp (hs i hi)
  exact (Array.getElem?_eq_some_iff.mp hRule).1

theorem closure?_of_fits (hs : s.Fits g) : g.closure? F s = some (g.closure F s) :=
  if_pos hs

theorem goto?_of_fits (hs : s.Fits g) : g.goto? F s X = some (g.goto F s X) :=
  if_pos (known_of_fits hs)

/-- The loop over the items that have been found comes to its end, after one turn for each of
them. -/
theorem turns?_ofSet (s : ItemSet) : (Worklist.ofSet s).turns? (g.predicts F) (g.closure F s).size =
    some ⟨g.closure F s, []⟩ :=
  Worklist.turns?_reachable

/-! ## Closure and goto -/

/-- What closure and `goto` make of two item sets. -/
structure ActsItemwise (g : Grammar) (F : FirstSets) (s t : ItemSet) : Prop where
  ends : (Worklist.ofSet s).turns? (g.predicts F) (g.closure F s).size = some ⟨g.closure F s, []⟩
  closure? : g.closure? F s = some (g.closure F s)
  contains : s ⊆ g.closure F s
  closed : (g.closure F s).Closed g F
  least : ∀ u : ItemSet, s ⊆ u → u.Closed g F → g.closure F s ⊆ u
  idempotent : g.closure? F (g.closure F s) = some (g.closure F s)
  union : g.closure? F (s ∪ t) = some (g.closure F s ∪ g.closure F t)
  goto? : ∀ X, g.goto? F s X = some (g.goto F s X)
  goto_union : ∀ X, g.goto? F (s ∪ t) X = some (g.goto F s X ∪ g.goto F t X)
  cores : s.cores = t.cores → (g.closure F s).cores = (g.closure F t).cores
  goto_cores : s.cores = t.cores → ∀ X, (g.goto F s X).cores = (g.goto F t X).cores

/-- Closure is found in finitely many turns and gives the least closed set. It and `goto` respect
unions, and the cores of what they give depend on cores alone. -/
theorem actsItemwise (hs : s.Fits g) (ht : t.Fits g) : g.ActsItemwise F s t where
  ends := turns?_ofSet s
  closure? := closure?_of_fits hs
  contains := subset_closure
  closed := ItemSet.closed_iff.mpr fun _ hi _ hj => closure_closed hi hj
  least _ hSubset hClosed := closure_least hSubset (ItemSet.closed_iff.mp hClosed)
  idempotent := by rw [closure?_of_fits (fits_closure hs), closure_closure]
  union := by rw [closure?_of_fits (fits_union hs ht), closure_union]
  goto? _ := goto?_of_fits hs
  goto_union _ := by rw [goto?_of_fits (fits_union hs ht), goto_union]
  cores hCores := cores_closure_congr hCores
  goto_cores hCores _ := cores_goto_congr hCores

/-- Lists of one terminal: `L → L x` and `L → x`. -/
def listing : Grammar := (Grammar.define do
  let x ← Draft.terminal "x"
  let l ← Draft.nonterminal "L"
  let _ ← Draft.rule l [.nonterminal l, .terminal x]
  let _ ← Draft.rule l [.terminal x]).toOption.get (by decide +kernel)

/-- The augmented rule from its beginning, with some lookahead. -/
def augmentedItems (t : Terminal) : ItemSet := OrdSet.singleton ⟨⟨augmentedRule, 0⟩, t⟩

theorem actsItemwise_listing :
    (augmentedItems 0).Fits listing ∧ (augmentedItems 1).Fits listing ∧
      (augmentedItems 0).cores = (augmentedItems 1).cores ∧
      (listing.closure listing.firstSets (augmentedItems 0)).size = 5 ∧
      listing.ActsItemwise listing.firstSets (augmentedItems 0) (augmentedItems 1) := by
  have hEnd : (augmentedItems 0).Fits listing := by decide +kernel
  have hOther : (augmentedItems 1).Fits listing := by decide +kernel
  exact ⟨hEnd, hOther, by decide +kernel, by decide +kernel, actsItemwise hEnd hOther⟩

end Grammar

end ShiftReduce
