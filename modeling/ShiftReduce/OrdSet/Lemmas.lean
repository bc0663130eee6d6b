import ShiftReduce.OrdSet.Basic

/-!
# Ordered finite sets: what the operations hold

Every operation is described by its members alone. Together with `ext` that
determines the result, so no later argument looks at the lists again.
-/

namespace ShiftReduce

/-- What is put into a collection, one element after the other, is in it in the end. -/
theorem foldl_insert_iff {σ α : Type} (has : σ → α → Prop) (insert : σ → α → σ)
    (hInsert : ∀ s a b, has (insert s a) b ↔ b = a ∨ has s b) (l : List α) (s : σ) (b : α) :
    has (l.foldl insert s) b ↔ has s b ∨ b ∈ l := by
  induction l generalizing s with
  | nil => simp
  | cons a l ih => rw [List.foldl_cons, ih, hInsert, List.mem_cons, or_left_comm, or_assoc]

namespace OrdSet

variable {α : Type} [Ord α]

/-! ## Increasing lists -/

section Lists

variable [Std.TransOrd α]

theorem nodup (s : OrdSet α) : s.toList.Nodup :=
  s.increasing.imp fun {a b} h he => by
    subst he
    exact absurd (h.symm.trans Std.ReflCmp.compare_self) (by decide)

/-- Increasing lists with the same members are equal. -/
theorem list_ext {l m : List α}
    (hl : l.Pairwise fun a b => compare a b = .lt)
    (hm : m.Pairwise fun a b => compare a b = .lt)
    (h : ∀ a, a ∈ l ↔ a ∈ m) : l = m := by
  induction l generalizing m with
  | nil =>
    cases m with
    | nil => rfl
    | cons b m => exact absurd ((h b).2 List.mem_cons_self) List.not_mem_nil
  | cons a l ih =>
    cases m with
    | nil => exact absurd ((h a).1 List.mem_cons_self) List.not_mem_nil
    | cons b m =>
      obtain ⟨ha, hl'⟩ := List.pairwise_cons.1 hl
      obtain ⟨hb, hm'⟩ := List.pairwise_cons.1 hm
      have irrefl : ∀ c : α, compare c c ≠ .lt := fun c hc =>
        absurd (hc.symm.trans Std.ReflCmp.compare_self) (by decide)
      have hab : a = b := by
        rcases List.mem_cons.1 ((h a).1 List.mem_cons_self) with he | hma
        · exact he
        · rcases List.mem_cons.1 ((h b).2 List.mem_cons_self) with he | hlb
          · exact he.symm
          · exact absurd (Std.TransCmp.lt_trans (ha b hlb) (hb a hma)) (irrefl a)
      subst hab
      rw [ih hl' hm' fun c => ?_]
      constructor
      · intro hc
        rcases List.mem_cons.1 ((h c).1 (List.mem_cons_of_mem _ hc)) with he | hc'
        · exact absurd (ha c hc) (he ▸ irrefl a)
        · exact hc'
      · intro hc
        rcases List.mem_cons.1 ((h c).2 (List.mem_cons_of_mem _ hc)) with he | hc'
        · exact absurd (hb c hc) (he ▸ irrefl a)
        · exact hc'

/-- A set is determined by its members. -/
theorem ext {s t : OrdSet α} (h : ∀ a, a ∈ s ↔ a ∈ t) : s = t := by
  have hl := list_ext s.increasing t.increasing h
  cases s; cases t; cases hl; rfl

theorem ext_iff {s t : OrdSet α} : s = t ↔ ∀ a, a ∈ s ↔ a ∈ t :=
  ⟨fun h _ => h ▸ Iff.rfl, ext⟩

theorem subset_antisymm {s t : OrdSet α} (hst : s ⊆ t) (hts : t ⊆ s) : s = t :=
  ext fun a => ⟨hst a, hts a⟩

theorem size_le_of_subset {s t : OrdSet α} (h : s ⊆ t) : s.size ≤ t.size :=
  s.nodup.length_le_of_subset h

theorem size_le_of_forall_lt {s : OrdSet Nat} {n : Nat} (h : ∀ a ∈ s, a < n) : s.size ≤ n := by
  have := s.nodup.length_le_of_subset fun a ha => List.mem_range.2 (h a ha)
  rwa [List.length_range] at this

end Lists

theorem subset_refl (s : OrdSet α) : s ⊆ s := fun _ h => h

theorem subset_trans {s t u : OrdSet α} (hst : s ⊆ t) (htu : t ⊆ u) : s ⊆ u :=
  fun a h => htu a (hst a h)

@[simp] theorem mem_toList {a : α} {s : OrdSet α} : a ∈ s.toList ↔ a ∈ s := Iff.rfl

@[simp] theorem not_mem_empty {a : α} : a ∉ (∅ : OrdSet α) := List.not_mem_nil

/-! ## Members of the results -/

section Lawful

variable [Std.TransOrd α] [Std.LawfulEqOrd α]

@[simp] theorem mem_insert {a b : α} {s : OrdSet α} : b ∈ s.insert a ↔ b = a ∨ b ∈ s :=
  mem_place

theorem mem_foldl_insert {b : α} {l : List α} {s : OrdSet α} :
    b ∈ l.foldl (fun s a => s.insert a) s ↔ b ∈ s ∨ b ∈ l :=
  foldl_insert_iff (fun s a => a ∈ s) _ (fun _ _ _ => mem_insert) l s b

@[simp] theorem mem_ofList {a : α} {l : List α} : a ∈ ofList l ↔ a ∈ l := by
  rw [ofList, mem_foldl_insert]
  exact or_iff_right not_mem_empty

@[simp] theorem mem_union {a : α} {s t : OrdSet α} : a ∈ s ∪ t ↔ a ∈ s ∨ a ∈ t :=
  mem_foldl_insert

@[simp] theorem mem_singleton {a b : α} : b ∈ singleton a ↔ b = a := by
  rw [singleton, mem_insert]
  exact or_iff_left not_mem_empty

theorem size_ofList {l : List α} (h : l.Nodup) : (ofList l).size = l.length :=
  Nat.le_antisymm ((ofList l).nodup.length_le_of_subset fun _ ha => mem_ofList.1 ha)
    (h.length_le_of_subset fun _ ha => mem_ofList.2 ha)

theorem subset_union_left {s t : OrdSet α} : s ⊆ s ∪ t := fun _ h => mem_union.2 (.inl h)

theorem subset_union_right {s t : OrdSet α} : t ⊆ s ∪ t := fun _ h => mem_union.2 (.inr h)

/-! ## Growth is reported exactly -/

theorem insertNew_fst [DecidableEq α] {a : α} {s : OrdSet α} :
    (s.insertNew a).1 = true ↔ a ∉ s := by
  simp [insertNew]

theorem absorb_fst {s t : OrdSet α} : (s.absorb t).1 = true ↔ ∃ a, a ∈ t ∧ a ∉ s := by
  rw [absorb, decide_eq_true_iff]
  constructor
  · intro h
    refine Classical.byContradiction fun hn => ?_
    have hsub : s ∪ t ⊆ s := fun a ha => by
      rcases mem_union.1 ha with ha | ha
      · exact ha
      · exact Classical.byContradiction fun has => hn ⟨a, ha, has⟩
    exact Nat.not_lt.2 (size_le_of_subset hsub) h
  · rintro ⟨a, hat, has⟩
    have hnd : (a :: s.toList).Nodup := List.nodup_cons.2 ⟨has, s.nodup⟩
    exact hnd.length_le_of_subset fun b hb => by
      rcases List.mem_cons.1 hb with rfl | hb
      · exact mem_union.2 (.inr hat)
      · exact mem_union.2 (.inl hb)

theorem size_lt_absorb {s t : OrdSet α} (h : (s.absorb t).1 = true) :
    s.size < (s.absorb t).2.size :=
  of_decide_eq_true h

theorem absorb_eq {s t : OrdSet α} (h : (s.absorb t).1 = false) : (s.absorb t).2 = s := by
  have hSubset : ∀ a, a ∈ t → a ∈ s := fun a hat => Classical.byContradiction fun has => by
    rw [absorb_fst.2 ⟨a, hat, has⟩] at h
    cases h
  exact ext fun a => mem_union.trans (or_iff_left_of_imp (hSubset a))

theorem size_le_size_absorb {s t : OrdSet α} : s.size ≤ (s.absorb t).2.size :=
  size_le_of_subset subset_union_left

end Lawful

end OrdSet

end ShiftReduce
