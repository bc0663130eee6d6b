import ShiftReduce.OrdSet.Lemmas

/-!
# Ordered finite maps

A finite map from a linearly ordered type, kept as the list of its entries in the strictly
increasing order of their keys. Unlike an ordered set, it is determined by what it holds only as
far as the values are.
-/

namespace ShiftReduce

/-- A finite map, as its entries in strictly increasing order of the keys. -/
structure OrdMap (κ ν : Type) [Ord κ] where
  entries : List (κ × ν)
  increasing : entries.Pairwise fun e e' => compare e.1 e'.1 = .lt

namespace OrdMap

variable {κ ν : Type} [Ord κ]

def empty : OrdMap κ ν := ⟨[], .nil⟩

def find? [DecidableEq κ] (m : OrdMap κ ν) (k : κ) : Option ν := m.entries.lookup k

/-- Puts a value at the place of its key in increasing entries, in place of the one that is there
already. -/
def place (k : κ) (v : ν) : List (κ × ν) → List (κ × ν)
  | [] => [(k, v)]
  | e :: l =>
    match compare k e.1 with
    | .lt => (k, v) :: e :: l
    | .eq => (k, v) :: l
    | .gt => e :: place k v l

variable [Std.LawfulEqOrd κ]

theorem ne_of_lt {k k' : κ} (h : compare k k' = .lt) : k ≠ k' := by
  rintro rfl
  exact absurd (h.symm.trans Std.ReflCmp.compare_self) (by decide)

variable [Std.TransOrd κ]

theorem mem_place {k : κ} {v : ν} {l : List (κ × ν)}
    (hl : l.Pairwise fun e e' => compare e.1 e'.1 = .lt) {e : κ × ν} :
    e ∈ place k v l ↔ e = (k, v) ∨ e ∈ l ∧ e.1 ≠ k := by
  induction l with
  | nil => simp [place]
  | cons first l ih =>
    obtain ⟨hFirst, hl⟩ := List.pairwise_cons.mp hl
    rw [place]
    split
    · next hLt =>
      have hOther : ∀ e ∈ first :: l, e.1 ≠ k := by
        rw [List.forall_mem_cons]
        exact ⟨(ne_of_lt hLt).symm,
          fun e he => (ne_of_lt (Std.TransCmp.lt_trans hLt (hFirst e he))).symm⟩
      rw [List.mem_cons, and_iff_left_of_imp (hOther e)]
    · next hEq =>
      obtain rfl : k = first.1 := Std.LawfulEqOrd.eq_of_compare hEq
      have hOther : ∀ e ∈ l, e.1 ≠ first.1 := fun e he => (ne_of_lt (hFirst e he)).symm
      rw [List.mem_cons, List.mem_cons]
      constructor
      · exact Or.imp_right fun he => ⟨.inr he, hOther e he⟩
      · rintro (rfl | ⟨rfl | he, hNe⟩)
        · exact .inl rfl
        · exact absurd rfl hNe
        · exact .inr he
    · next hGt =>
      have hNe : first.1 ≠ k := ne_of_lt (Std.OrientedCmp.gt_iff_lt.mp hGt)
      rw [List.mem_cons, ih hl, List.mem_cons]
      constructor
      · rintro (rfl | rfl | ⟨he, hNe'⟩)
        · exact .inr ⟨.inl rfl, hNe⟩
        · exact .inl rfl
        · exact .inr ⟨.inr he, hNe'⟩
      · rintro (rfl | ⟨rfl | he, hNe'⟩)
        · exact .inr (.inl rfl)
        · exact .inl rfl
        · exact .inr (.inr ⟨he, hNe'⟩)

theorem increasing_place (k : κ) (v : ν) {l : List (κ × ν)}
    (hl : l.Pairwise fun e e' => compare e.1 e'.1 = .lt) :
    (place k v l).Pairwise fun e e' => compare e.1 e'.1 = .lt := by
  induction l with
  | nil => simp [place]
  | cons first l ih =>
    obtain ⟨hFirst, hl'⟩ := List.pairwise_cons.mp hl
    rw [place]
    split
    · next hLt =>
      refine List.pairwise_cons.mpr ⟨?_, hl⟩
      rw [List.forall_mem_cons]
      exact ⟨hLt, fun e he => Std.TransCmp.lt_trans hLt (hFirst e he)⟩
    · next hEq =>
      obtain rfl : k = first.1 := Std.LawfulEqOrd.eq_of_compare hEq
      exact List.pairwise_cons.mpr ⟨hFirst, hl'⟩
    · next hGt =>
      refine List.pairwise_cons.mpr ⟨fun e he => ?_, ih hl'⟩
      rcases (mem_place hl').mp he with rfl | ⟨he, _⟩
      · exact Std.OrientedCmp.gt_iff_lt.mp hGt
      · exact hFirst e he

def put (m : OrdMap κ ν) (k : κ) (v : ν) : OrdMap κ ν :=
  ⟨place k v m.entries, increasing_place k v m.increasing⟩

/-! ## What is found -/

variable {m : OrdMap κ ν} {k k' : κ} {v : ν}

theorem mem_put {e : κ × ν} : e ∈ (m.put k v).entries ↔ e = (k, v) ∨ e ∈ m.entries ∧ e.1 ≠ k :=
  mem_place m.increasing

variable [DecidableEq κ]

theorem find?_eq_some_iff : m.find? k = some v ↔ (k, v) ∈ m.entries := by
  obtain ⟨entries, increasing⟩ := m
  rw [find?]
  induction entries with
  | nil => simp
  | cons first entries ih =>
    obtain ⟨hFirst, increasing⟩ := List.pairwise_cons.mp increasing
    rw [List.lookup_cons, List.mem_cons]
    split
    · next hKey =>
      obtain rfl : k = first.1 := eq_of_beq hKey
      have hOther : (first.1, v) ∉ entries := fun hMem => ne_of_lt (hFirst _ hMem) rfl
      rw [or_iff_left hOther, Option.some_inj, Prod.ext_iff]
      exact ⟨fun h => ⟨rfl, h.symm⟩, fun h => h.2.symm⟩
    · next hKey =>
      rw [ih increasing, or_iff_right]
      rintro rfl
      exact Bool.false_ne_true (hKey.symm.trans (beq_self_eq_true _))

theorem find?_put : (m.put k v).find? k' = if k' = k then some v else m.find? k' := by
  refine Option.ext fun v' => ?_
  rw [find?_eq_some_iff, mem_put]
  split
  · next hKey =>
    rw [Option.some_inj, Prod.mk.injEq]
    simp only [hKey, ne_eq, not_true_eq_false, and_false, or_false, true_and]
    exact eq_comm
  · next hKey =>
    rw [find?_eq_some_iff, Prod.mk.injEq]
    simp [hKey]

end OrdMap

end ShiftReduce
