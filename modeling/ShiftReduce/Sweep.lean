/-!
# Sweeps

Sets that depend on each other can be filled by going over them again and again. A visit adds
its share, which it works out from the sets as they are, to one of them. A pass makes a list of
visits one after the other, so each of them sees what those before it have added. Passes are
repeated until one of them adds nothing.

That happens because no set outgrows a limit, while every pass but the last makes some set
larger. In the end no visit has anything to add (`Sweep.apply_settle`), and whatever the visits
preserve holds of the result (`Sweep.settle_induction`).
-/

namespace ShiftReduce

/-- What a visit adds, and to which set. -/
structure Visit (σ : Type) where
  place : Nat
  share : Array σ → σ

/-- How sets are filled, with the reasons why that ends. -/
structure Sweep (σ : Type) where
  visits : List (Visit σ)
  /-- Adds the second set to the first, and says whether the first has grown. -/
  join : σ → σ → Bool × σ
  /-- What holds of all sets that can come up. -/
  Fits : σ → Prop
  size : σ → Nat
  limit : Nat
  fits_share : ∀ {visit : Visit σ} {sets : Array σ}, visit ∈ visits → (∀ s ∈ sets, Fits s) →
    Fits (visit.share sets)
  fits_join : ∀ {s t : σ}, Fits s → Fits t → Fits (join s t).2
  size_le : ∀ {s : σ}, Fits s → size s ≤ limit
  size_lt : ∀ {s t : σ}, (join s t).1 = true → size s < size (join s t).2
  join_eq : ∀ {s t : σ}, (join s t).1 = false → (join s t).2 = s

namespace Sweep

variable {σ : Type} (sweep : Sweep σ)

/-- Makes one visit, and says whether it has added anything. -/
def apply (visit : Visit σ) (sets : Array σ) : Bool × Array σ :=
  match sets[visit.place]? with
  | none => (false, sets)
  | some s =>
    let joined := sweep.join s (visit.share sets)
    (joined.1, sets.setIfInBounds visit.place joined.2)

/-- Makes visits in order, and says whether any of them has added anything. -/
def pass : List (Visit σ) → Array σ → Bool × Array σ
  | [], sets => (false, sets)
  | visit :: rest, sets =>
    let now := sweep.apply visit sets
    let later := pass rest now.2
    (now.1 || later.1, later.2)

variable {sweep} {sets : Array σ} {visit : Visit σ} {visits : List (Visit σ)}

/-! ## What a visit does -/

/-- A visit changes nothing, or it replaces one set by a larger one. -/
theorem apply_cases (visit : Visit σ) (sets : Array σ) :
    sweep.apply visit sets = (false, sets) ∨
      ∃ s, sets[visit.place]? = some s ∧ (sweep.join s (visit.share sets)).1 = true ∧
        sweep.apply visit sets =
          (true, sets.setIfInBounds visit.place (sweep.join s (visit.share sets)).2) := by
  cases hs : sets[visit.place]? with
  | none => exact .inl (by rw [apply, hs])
  | some s =>
    have hApply : sweep.apply visit sets = ((sweep.join s (visit.share sets)).1,
        sets.setIfInBounds visit.place (sweep.join s (visit.share sets)).2) := by
      rw [apply, hs]
    cases hJoin : (sweep.join s (visit.share sets)).1 with
    | false =>
      obtain ⟨hLt, rfl⟩ := Array.getElem?_eq_some_iff.mp hs
      refine .inl ?_
      rw [hApply, hJoin, sweep.join_eq hJoin, Array.setIfInBounds, dif_pos hLt,
        Array.set_getElem_self]
    | true => exact .inr ⟨s, rfl, hJoin, by rw [hApply, hJoin]⟩

theorem fits_apply (hVisit : visit ∈ sweep.visits) (hFits : ∀ s ∈ sets, sweep.Fits s) :
    ∀ s ∈ (sweep.apply visit sets).2, sweep.Fits s := by
  rcases sweep.apply_cases visit sets with hApply | ⟨s, hs, _, hApply⟩ <;> rw [hApply]
  · exact hFits
  · intro s' hs'
    rcases Array.mem_or_eq_of_mem_setIfInBounds hs' with hs' | rfl
    · exact hFits s' hs'
    · exact sweep.fits_join (hFits s (Array.mem_of_getElem? hs)) (sweep.fits_share hVisit hFits)

theorem size_apply : (sweep.apply visit sets).2.size = sets.size := by
  rcases sweep.apply_cases visit sets with hApply | ⟨_, _, _, hApply⟩ <;> rw [hApply]
  exact Array.size_setIfInBounds

/-! ## What a pass does -/

theorem pass_induction {P : Array σ → Prop} (hSets : P sets)
    (hVisit : ∀ visit ∈ visits, ∀ sets, P sets → P (sweep.apply visit sets).2) :
    P (sweep.pass visits sets).2 := by
  induction visits generalizing sets with
  | nil => exact hSets
  | cons visit rest ih =>
    rw [List.forall_mem_cons] at hVisit
    exact ih (hVisit.1 sets hSets) hVisit.2

/-- A pass that adds nothing has found nothing to add at any visit. -/
theorem apply_of_pass (hPass : (sweep.pass visits sets).1 = false) :
    (sweep.pass visits sets).2 = sets ∧
      ∀ visit ∈ visits, sweep.apply visit sets = (false, sets) := by
  induction visits generalizing sets with
  | nil => exact ⟨rfl, by simp⟩
  | cons visit rest ih =>
    rw [pass] at hPass ⊢
    simp only [Bool.or_eq_false_iff] at hPass ⊢
    rcases sweep.apply_cases visit sets with hApply | ⟨_, _, _, hApply⟩
    · rw [hApply] at hPass ⊢
      obtain ⟨hSets, hRest⟩ := ih hPass.2
      exact ⟨hSets, List.forall_mem_cons.mpr ⟨hApply, hRest⟩⟩
    · rw [hApply] at hPass
      cases hPass.1

/-! ## Passes end -/

/-- How many elements the sets have in all. -/
def total (sweep : Sweep σ) (sets : Array σ) : Nat := sets.toList.foldr (sweep.size · + ·) 0

theorem foldr_size_lt_of_set {l : List σ} {i : Nat} {s s' : σ} {size : σ → Nat}
    (hs : l[i]? = some s) (hLt : size s < size s') :
    l.foldr (size · + ·) 0 < (l.set i s').foldr (size · + ·) 0 := by
  induction l generalizing i with
  | nil => cases hs
  | cons a l ih =>
    cases i with
    | zero =>
      cases hs
      exact Nat.add_lt_add_right hLt _
    | succ i =>
      rw [List.getElem?_cons_succ] at hs
      exact Nat.add_lt_add_left (ih hs) _

theorem foldr_size_le {l : List σ} {size : σ → Nat} {limit : Nat} (h : ∀ s ∈ l, size s ≤ limit) :
    l.foldr (size · + ·) 0 ≤ l.length * limit := by
  induction l with
  | nil => exact Nat.zero_le _
  | cons a l ih =>
    rw [List.forall_mem_cons] at h
    rw [List.foldr_cons, List.length_cons, Nat.succ_mul, Nat.add_comm]
    exact Nat.add_le_add (ih h.2) h.1

theorem total_le (hFits : ∀ s ∈ sets, sweep.Fits s) :
    sweep.total sets ≤ sets.size * sweep.limit :=
  foldr_size_le fun s hs => sweep.size_le (hFits s (Array.mem_toList_iff.mp hs))

theorem total_apply (sweep : Sweep σ) (visit : Visit σ) (sets : Array σ) :
    sweep.total sets ≤ sweep.total (sweep.apply visit sets).2 ∧
    ((sweep.apply visit sets).1 = true →
      sweep.total sets < sweep.total (sweep.apply visit sets).2) := by
  rcases sweep.apply_cases visit sets with hApply | ⟨s, hs, hJoin, hApply⟩ <;> rw [hApply]
  · exact ⟨Nat.le_refl _, nofun⟩
  · have hLt : sweep.total sets <
        sweep.total (sets.setIfInBounds visit.place (sweep.join s (visit.share sets)).2) := by
      rw [total, total, Array.toList_setIfInBounds]
      exact foldr_size_lt_of_set (by rwa [Array.getElem?_toList]) (sweep.size_lt hJoin)
    exact ⟨Nat.le_of_lt hLt, fun _ => hLt⟩

theorem total_pass (sweep : Sweep σ) (visits : List (Visit σ)) (sets : Array σ) :
    sweep.total sets ≤ sweep.total (sweep.pass visits sets).2 ∧
    ((sweep.pass visits sets).1 = true →
      sweep.total sets < sweep.total (sweep.pass visits sets).2) := by
  induction visits generalizing sets with
  | nil => exact ⟨Nat.le_refl _, nofun⟩
  | cons visit rest ih =>
    have hNow := sweep.total_apply visit sets
    have hLater := ih (sweep.apply visit sets).2
    rw [pass]
    simp only [Bool.or_eq_true]
    refine ⟨Nat.le_trans hNow.1 hLater.1, ?_⟩
    rintro (hChanged | hChanged)
    · exact Nat.lt_of_lt_of_le (hNow.2 hChanged) hLater.1
    · exact Nat.lt_of_le_of_lt hNow.1 (hLater.2 hChanged)

theorem fits_pass (hVisits : visits ⊆ sweep.visits) (hFits : ∀ s ∈ sets, sweep.Fits s) :
    ∀ s ∈ (sweep.pass visits sets).2, sweep.Fits s :=
  pass_induction (P := fun sets => ∀ s ∈ sets, sweep.Fits s) hFits
    fun _ hVisit _ hSets => fits_apply (hVisits hVisit) hSets

theorem size_pass (sweep : Sweep σ) (visits : List (Visit σ)) (sets : Array σ) :
    (sweep.pass visits sets).2.size = sets.size :=
  pass_induction (P := fun swept => swept.size = sets.size) rfl
    fun _ _ _ hSize => size_apply.trans hSize

/-- Repeats passes until one of them adds nothing. -/
def settle (sweep : Sweep σ) (sets : Array σ) (fits : ∀ s ∈ sets, sweep.Fits s) : Array σ :=
  match hPass : sweep.pass sweep.visits sets with
  | (true, swept) =>
    have fits' : ∀ s ∈ swept, sweep.Fits s := by
      have := sweep.fits_pass (List.Subset.refl _) fits
      rwa [hPass] at this
    sweep.settle swept fits'
  | (false, swept) => swept
termination_by sets.size * sweep.limit - sweep.total sets
decreasing_by
  have hGrows := (sweep.total_pass sweep.visits sets).2
  have hSize := sweep.size_pass sweep.visits sets
  rw [hPass] at hGrows hSize
  have hLt : sweep.total sets < sweep.total swept := hGrows rfl
  have hLimit := total_le fits'
  rw [show swept.size = sets.size from hSize] at hLimit ⊢
  omega

/-! ## The sets that are found -/

/-- What every visit preserves holds of the sets that are found. -/
theorem settle_induction {P : Array σ → Prop}
    (hVisit : ∀ visit ∈ sweep.visits, ∀ sets, P sets → P (sweep.apply visit sets).2)
    {fits : ∀ s ∈ sets, sweep.Fits s} (hSets : P sets) : P (sweep.settle sets fits) := by
  fun_induction settle sweep sets fits with
  | case1 sets fits swept hPass _ ih =>
    have hSwept := pass_induction hSets hVisit
    rw [hPass] at hSwept
    exact ih hSwept
  | case2 sets fits swept hPass =>
    have hSwept := pass_induction hSets hVisit
    rwa [hPass] at hSwept

/-- In the end no visit adds anything. -/
theorem apply_settle (fits : ∀ s ∈ sets, sweep.Fits s) (hVisit : visit ∈ sweep.visits) :
    sweep.apply visit (sweep.settle sets fits) = (false, sweep.settle sets fits) := by
  fun_induction settle sweep sets fits with
  | case1 sets fits _ _ _ ih => exact ih
  | case2 sets fits swept hPass =>
    obtain ⟨hSwept, hVisits⟩ := apply_of_pass (congrArg Prod.fst hPass)
    rw [hPass] at hSwept
    rw [show swept = sets from hSwept]
    exact hVisits visit hVisit

/-- What the visits preserve of each single set holds of every set that is found. -/
theorem settle_forall {P : Nat → σ → Prop}
    (hVisit : ∀ visit ∈ sweep.visits, ∀ sets : Array σ, (∀ i s, sets[i]? = some s → P i s) →
      ∀ s, P visit.place s → P visit.place (sweep.join s (visit.share sets)).2)
    {fits : ∀ s ∈ sets, sweep.Fits s} (hSets : ∀ i s, sets[i]? = some s → P i s) :
    ∀ i s, (sweep.settle sets fits)[i]? = some s → P i s := by
  refine settle_induction (P := fun sets => ∀ i s, sets[i]? = some s → P i s) ?_ hSets
  intro visit hMem sets hSets i s hs
  rcases sweep.apply_cases visit sets with hApply | ⟨s', hs', _, hApply⟩ <;> rw [hApply] at hs
  · exact hSets i s hs
  · rw [Array.getElem?_setIfInBounds] at hs
    split at hs
    · next hPlace =>
      subst hPlace
      split at hs
      · rw [← Option.some_inj.mp hs]
        exact hVisit visit hMem sets hSets s' (hSets _ s' hs')
      · cases hs
    · exact hSets i s hs

/-- What a set keeps while it grows, the set that is found has kept. -/
theorem settle_keeps {P : σ → Prop} {i : Nat} (hJoin : ∀ s t, P s → P (sweep.join s t).2)
    {fits : ∀ s ∈ sets, sweep.Fits s} (hSets : ∃ s, sets[i]? = some s ∧ P s) :
    ∃ s, (sweep.settle sets fits)[i]? = some s ∧ P s := by
  refine settle_induction (P := fun sets => ∃ s, sets[i]? = some s ∧ P s) ?_ hSets
  rintro visit _ sets ⟨s, hs, hP⟩
  rcases sweep.apply_cases visit sets with hApply | ⟨s', hs', _, hApply⟩ <;> rw [hApply]
  · exact ⟨s, hs, hP⟩
  · rw [Array.getElem?_setIfInBounds]
    split
    · next hPlace =>
      subst hPlace
      cases hs.symm.trans hs'
      rw [if_pos (Array.getElem?_eq_some_iff.mp hs).1]
      exact ⟨_, rfl, hJoin s _ hP⟩
    · exact ⟨s, hs, hP⟩

/-- In the end every set holds what the visits to it would add. -/
theorem join_share_settle (fits : ∀ s ∈ sets, sweep.Fits s) {s : σ} (hVisit : visit ∈ sweep.visits)
    (hs : (sweep.settle sets fits)[visit.place]? = some s) :
    (sweep.join s (visit.share (sweep.settle sets fits))).2 = s := by
  have hApply := apply_settle fits hVisit
  rw [apply, hs, Prod.mk.injEq] at hApply
  exact sweep.join_eq hApply.1

theorem size_settle {fits : ∀ s ∈ sets, sweep.Fits s} :
    (sweep.settle sets fits).size = sets.size :=
  settle_induction (P := fun found => found.size = sets.size)
    (fun _ _ _ hSize => size_apply.trans hSize) rfl

end Sweep

end ShiftReduce
