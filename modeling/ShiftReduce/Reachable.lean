import ShiftReduce.OrdSet.Lemmas

/-!
# What can be reached

`reachable next start` lists everything that repeated use of `next` leads to,
each element once and in the order of discovery: elements are expanded in the
order in which they were found, and the successors of an element are found in
the order in which `next` lists them.

The search ends because all that it can find satisfies some `P` which at most
`n` elements satisfy; the number of elements already expanded then grows
towards `n`.
-/

namespace ShiftReduce

/-! ## Finitely many elements -/

/-- At most `n` different elements satisfy `P`. -/
def AtMost {α : Type} (n : Nat) (P : α → Prop) : Prop :=
  ∀ l : List α, l.Nodup → (∀ a ∈ l, P a) → l.length ≤ n

namespace AtMost

variable {α : Type}

theorem of_list {P : α → Prop} {u : List α} (h : ∀ a, P a → a ∈ u) : AtMost u.length P :=
  fun _ hd hp => hd.length_le_of_subset fun a ha => h a (hp a ha)

/-- A list over `u` has at most `2 ^ u.length` ordered sets. Those with the
first element of `u` and those without are counted apart; taking that element
away keeps the former different from each other. -/
theorem ordSet [Ord α] [Std.TransOrd α] [Std.LawfulEqOrd α] [DecidableEq α] (u : List α) :
    AtMost (Nat.pow 2 u.length) fun s : OrdSet α => ∀ a ∈ s, a ∈ u := by
  induction u with
  | nil =>
    refine of_list (u := [(∅ : OrdSet α)]) fun s hs => List.mem_singleton.2 ?_
    exact OrdSet.ext fun a => ⟨fun h => absurd (hs a h) List.not_mem_nil,
      fun h => absurd h OrdSet.not_mem_empty⟩
  | cons x u ih =>
    intro l hd hp
    let without (s : OrdSet α) : OrdSet α := OrdSet.ofList (s.toList.filter fun a => a ≠ x)
    have mem_without : ∀ (s : OrdSet α) (a : α), a ∈ without s ↔ a ∈ s ∧ a ≠ x := by
      intro s a
      simp [without]
    have hSplit := l.length_eq_countP_add_countP fun s : OrdSet α => decide (x ∈ s)
    simp only [List.countP_eq_length_filter, decide_eq_true_eq] at hSplit
    have hOut : (l.filter fun s : OrdSet α => x ∉ s).length ≤ Nat.pow 2 u.length := by
      refine ih _ (hd.filter _) fun s hs a ha => ?_
      obtain ⟨hsl, hxs⟩ := List.mem_filter.1 hs
      rcases List.mem_cons.1 (hp s hsl a ha) with rfl | h
      · simp [ha] at hxs
      · exact h
    have hIn : ((l.filter fun s : OrdSet α => x ∈ s).map without).length
        ≤ Nat.pow 2 u.length := by
      refine ih _ ?_ ?_
      · refine List.pairwise_map.2 ((hd.filter _).imp_of_mem ?_)
        intro s t hs ht hne he
        have hxs : x ∈ s := by simpa using (List.mem_filter.1 hs).2
        have hxt : x ∈ t := by simpa using (List.mem_filter.1 ht).2
        refine hne (OrdSet.ext fun a => ?_)
        by_cases hax : a = x
        · subst hax; exact ⟨fun _ => hxt, fun _ => hxs⟩
        · have := mem_without s a
          rw [he, mem_without t a] at this
          exact ⟨fun h => (this.2 ⟨h, hax⟩).1, fun h => (this.1 ⟨h, hax⟩).1⟩
      · intro s hs a ha
        obtain ⟨t, ht, rfl⟩ := List.mem_map.1 hs
        obtain ⟨hat, hax⟩ := (mem_without t a).1 ha
        exact (List.mem_cons.1 (hp t (List.mem_filter.1 ht).1 a hat)).resolve_left hax
    rw [List.length_map] at hIn
    have hDouble : Nat.pow 2 (x :: u).length = Nat.pow 2 u.length * 2 := rfl
    rw [hDouble]
    omega

end AtMost

/-! ## The search -/

section Search

variable {α : Type} [DecidableEq α]

/-- The successors that have not been found yet, each once. -/
def unseen (next : α → List α) (found : List α) (a : α) : List α :=
  (next a).eraseDups.filter fun b => b ∉ found

theorem nodup_eraseDups : (l : List α) → l.eraseDups.Nodup
  | [] => by simp
  | a :: l => by
    rw [List.eraseDups_cons, List.nodup_cons]
    exact ⟨by simp, nodup_eraseDups (l.filter fun b => !b == a)⟩
termination_by l => l.length
decreasing_by exact Nat.lt_succ_of_le (List.length_filter_le _ _)

theorem mem_unseen {next : α → List α} {found : List α} {a b : α} :
    b ∈ unseen next found a ↔ b ∈ next a ∧ b ∉ found := by
  simp [unseen]

theorem nodup_append_unseen {next : α → List α} {found : List α} {a : α}
    (h : found.Nodup) : (found ++ unseen next found a).Nodup :=
  List.nodup_append.2 ⟨h, (nodup_eraseDups _).filter _, fun _ hb _ hc he =>
    (mem_unseen.1 hc).2 (he ▸ hb)⟩

/-- The search: `done` has been expanded, `todo` waits to be. -/
def discover (next : α → List α) {n : Nat} {P : α → Prop} (bound : AtMost n P)
    (closed : ∀ a, P a → ∀ b ∈ next a, P b) (done todo : List α)
    (distinct : (done ++ todo).Nodup) (within : ∀ a ∈ done ++ todo, P a) : List α :=
  match todo with
  | [] => done
  | a :: rest =>
    have split : done ++ [a] ++ (rest ++ unseen next (done ++ a :: rest) a) =
        (done ++ a :: rest) ++ unseen next (done ++ a :: rest) a := by
      simp
    discover next bound closed (done ++ [a]) (rest ++ unseen next (done ++ a :: rest) a)
      (split ▸ nodup_append_unseen distinct)
      (split ▸ fun b hb => (List.mem_append.1 hb).elim (within b) fun hb =>
        closed a (within a (List.mem_append_right _ List.mem_cons_self)) b (mem_unseen.1 hb).1)
termination_by n - done.length
decreasing_by
  have := bound _ distinct within
  simp only [List.length_append, List.length_cons, List.length_nil] at this ⊢
  omega

/-- Everything that `next` leads to from `start`, in the order of discovery. -/
def reachable (next : α → List α) {n : Nat} {P : α → Prop} (bound : AtMost n P)
    (closed : ∀ a, P a → ∀ b ∈ next a, P b) (start : List α) (within : ∀ a ∈ start, P a) :
    List α :=
  discover next bound closed [] start.eraseDups (nodup_eraseDups start)
    fun a ha => within a (List.mem_eraseDups.1 ha)

variable {next : α → List α} {n : Nat} {P : α → Prop} {bound : AtMost n P}
  {closed : ∀ a, P a → ∀ b ∈ next a, P b}

theorem nodup_discover (done todo : List α) (distinct : (done ++ todo).Nodup)
    (within : ∀ a ∈ done ++ todo, P a) :
    (discover next bound closed done todo distinct within).Nodup := by
  fun_induction discover next bound closed done todo distinct within with
  | case1 done distinct => simpa using distinct
  | case2 done a rest distinct within split _ _ ih => exact ih

/-- What the search returns begins with what it started with. -/
theorem prefix_discover (done todo : List α) (distinct : (done ++ todo).Nodup)
    (within : ∀ a ∈ done ++ todo, P a) :
    done ++ todo <+: discover next bound closed done todo distinct within := by
  fun_induction discover next bound closed done todo distinct within with
  | case1 done distinct => simp
  | case2 done a rest distinct within split _ _ ih =>
    rw [split] at ih
    exact (List.prefix_append _ _).trans ih

/-- The result is closed under `next` if the expanded part was. -/
theorem discover_closed (done todo : List α) (distinct : (done ++ todo).Nodup)
    (within : ∀ a ∈ done ++ todo, P a)
    (h : ∀ a ∈ done, ∀ b ∈ next a, b ∈ done ++ todo) :
    ∀ a ∈ discover next bound closed done todo distinct within, ∀ b ∈ next a,
      b ∈ discover next bound closed done todo distinct within := by
  fun_induction discover next bound closed done todo distinct within with
  | case1 done distinct => simpa using h
  | case2 done a rest distinct within split _ _ ih =>
    refine ih fun b hb c hc => ?_
    rw [split]
    rcases List.mem_append.1 hb with hb | hb
    · exact List.mem_append_left _ (h b hb c hc)
    · rw [List.mem_singleton.1 hb] at hc
      by_cases hf : c ∈ done ++ a :: rest
      · exact List.mem_append_left _ hf
      · exact List.mem_append_right _ (mem_unseen.2 ⟨hc, hf⟩)

/-- What holds of the elements that are there and is kept by `next` holds of all that is found. -/
theorem forall_mem_discover {Q : α → Prop} (hNext : ∀ a, Q a → ∀ b ∈ next a, Q b)
    (done todo : List α) (distinct : (done ++ todo).Nodup)
    (within : ∀ a ∈ done ++ todo, P a) (h : ∀ a ∈ done ++ todo, Q a) :
    ∀ b ∈ discover next bound closed done todo distinct within, Q b := by
  fun_induction discover next bound closed done todo distinct within with
  | case1 done distinct => simpa using h
  | case2 done a rest distinct within split _ _ ih =>
    refine ih fun b hb => ?_
    rw [split] at hb
    rcases List.mem_append.1 hb with hb | hb
    · exact h b hb
    · exact hNext a (h a (List.mem_append_right _ List.mem_cons_self)) b (mem_unseen.1 hb).1

theorem nodup_reachable {start : List α} {within : ∀ a ∈ start, P a} :
    (reachable next bound closed start within).Nodup :=
  nodup_discover _ _ _ _

theorem getElem?_reachable_zero {a : α} {within : ∀ b ∈ [a], P b} :
    (reachable next bound closed [a] within)[0]? = some a := by
  have hOnce : [a].eraseDups = [a] := by simp [List.eraseDups_cons]
  obtain ⟨found, hFound⟩ : [] ++ [a].eraseDups <+: reachable next bound closed [a] within :=
    prefix_discover _ _ _ _
  rw [← hFound, hOnce]
  rfl

/-! The search finds the least set that has the elements of `start` in it and is closed under
`next`. -/

section Found

variable {start : List α} {within : ∀ a ∈ start, P a}

theorem mem_reachable_of_mem {a : α} (h : a ∈ start) :
    a ∈ reachable next bound closed start within :=
  (prefix_discover _ _ _ _).subset (List.mem_eraseDups.2 h)

theorem mem_reachable_of_mem_next {a b : α} (ha : a ∈ reachable next bound closed start within)
    (hb : b ∈ next a) : b ∈ reachable next bound closed start within :=
  discover_closed _ _ _ _ (by simp) a ha b hb

theorem forall_mem_reachable {Q : α → Prop} (hStart : ∀ a ∈ start, Q a)
    (hNext : ∀ a, Q a → ∀ b ∈ next a, Q b) :
    ∀ b ∈ reachable next bound closed start within, Q b :=
  forall_mem_discover hNext _ _ _ _ fun a ha => hStart a (List.mem_eraseDups.1 ha)

end Found

end Search

end ShiftReduce
