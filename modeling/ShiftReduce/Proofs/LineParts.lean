import ShiftReduce.Grammar.Line
import ShiftReduce.Proofs.Tokens

/-!
# Parts of a line

What the pieces are that a line is taken apart into: the words of a text, the text without the
blanks at its ends, and the texts before and after an arrow.

* `words_eq_iff`: the words of a text are the one list of words that it consists of.
* `Separated.not_infix`: characters in a row that are no blanks stand in a text only if they stand
  in one of its words. Blanks between words therefore neither make an arrow nor break one.
* `splitArrow_eq_some_iff`: an arrow is found at the one place that has no arrow before it.
-/

namespace ShiftReduce

/-- What a character divides has a run without this character on one side of it. -/
theorem not_infix_append_cons {α : Type} {c : α} {run l r : List α} (hc : c ∉ run)
    (hl : ¬ run <:+: l) (hr : ¬ run <:+: r) : ¬ run <:+: l ++ c :: r := by
  rintro ⟨front, back, h⟩
  obtain ⟨rest, hLeft, _⟩ | ⟨rest, hFront, hRight⟩ := List.append_eq_append_iff.mp h
  · exact hl ⟨front, rest, hLeft.symm⟩
  · cases rest with
    | nil =>
      rw [List.append_nil] at hFront
      exact hl (hFront ▸ (List.suffix_append front run).isInfix)
    | cons d rest =>
      obtain ⟨rfl, rfl⟩ := List.cons.inj hRight
      obtain ⟨before, rfl, hRun⟩ | ⟨before, _, hRun⟩ := List.append_eq_append_iff.mp hFront
      · exact hc (hRun ▸ List.mem_append_right before List.mem_cons_self)
      · cases before with
        | nil =>
          rw [List.nil_append] at hRun
          exact hc (hRun ▸ List.mem_cons_self)
        | cons e before =>
          obtain ⟨rfl, rfl⟩ := List.cons.inj hRun
          exact hr ⟨before, back, rfl⟩

namespace Text

/-! ## Words -/

/-- Whatever word has been begun, it and the text behind it consist of words. -/
theorem exists_separated (text : List Char) {begun : List Char}
    (hBegun : ∀ c ∈ begun, isBlank c = false) :
    ∃ words, Separated words (begun ++ text) ∧
      ∀ word ∈ words, word ≠ [] ∧ ∀ c ∈ word, isBlank c = false := by
  induction text generalizing begun with
  | nil =>
    rw [List.append_nil]
    by_cases hNil : begun = []
    · rw [hNil]
      exact ⟨[], .nil, by simp⟩
    · exact ⟨[begun], .last begun, by simpa using ⟨hNil, hBegun⟩⟩
  | cons c text ih =>
    by_cases hBlank : isBlank c = true
    · obtain ⟨words, hSeparated, hWords⟩ := ih (List.forall_mem_nil _)
      rw [List.nil_append] at hSeparated
      by_cases hNil : begun = []
      · rw [hNil]
        exact ⟨words, .blank hBlank hSeparated, hWords⟩
      · exact ⟨begun :: words, .word begun hBlank hSeparated,
          List.forall_mem_cons.mpr ⟨⟨hNil, hBegun⟩, hWords⟩⟩
    · rw [List.append_cons]
      refine ih fun d hd => ?_
      rcases List.mem_append.mp hd with hd | hd
      · exact hBegun d hd
      · rw [List.mem_singleton.mp hd]
        exact Bool.eq_false_iff.mpr hBlank

theorem words_eq_iff {text : List Char} {ws : List (List Char)} :
    words text = ws ↔
      Separated ws text ∧ ∀ word ∈ ws, word ≠ [] ∧ ∀ c ∈ word, isBlank c = false := by
  constructor
  · rintro rfl
    obtain ⟨ws, hSeparated, hWords⟩ := exists_separated text (List.forall_mem_nil _)
    rw [List.nil_append] at hSeparated
    rw [words_of_separated hSeparated hWords]
    exact ⟨hSeparated, hWords⟩
  · rintro ⟨hSeparated, hWords⟩
    exact words_of_separated hSeparated hWords

theorem Separated.infix_of_mem {words : List (List Char)} {text word : List Char}
    (h : Separated words text) (hWord : word ∈ words) : word <:+: text := by
  induction h with
  | nil => cases hWord
  | last _ =>
    obtain rfl := List.mem_singleton.mp hWord
    exact List.infix_rfl
  | blank _ _ ih => exact (ih hWord).trans (List.suffix_cons _ _).isInfix
  | word first _ _ ih =>
    rcases List.mem_cons.mp hWord with rfl | hWord
    · exact (List.prefix_append _ _).isInfix
    · exact (ih hWord).trans (((List.suffix_cons _ _).trans (List.suffix_append _ _)).isInfix)

theorem Separated.not_infix {words : List (List Char)} {text run : List Char}
    (h : Separated words text) (hNe : run ≠ []) (hRun : ∀ c ∈ run, isBlank c = false)
    (hWords : ∀ word ∈ words, ¬ run <:+: word) : ¬ run <:+: text := by
  have hBlank : ∀ {c : Char}, isBlank c = true → c ∉ run := fun hc hMem =>
    Bool.false_ne_true ((hRun _ hMem).symm.trans hc)
  have hNil : ¬ run <:+: [] := fun hInfix => hNe (List.infix_nil.mp hInfix)
  induction h with
  | nil => exact hNil
  | last word => exact hWords word (List.mem_singleton.mpr rfl)
  | blank hc _ ih => exact not_infix_append_cons (hBlank hc) hNil (ih hWords)
  | word first hc _ ih =>
    rw [List.forall_mem_cons] at hWords
    exact not_infix_append_cons (hBlank hc) hWords.1 (ih hWords.2)

/-! ## Trimming -/

theorem isBlank_head_dropWhile {text : List Char} {c : Char}
    (h : (text.dropWhile isBlank).head? = some c) : isBlank c = false := by
  have := List.head?_dropWhile_not isBlank text
  rwa [h] at this

/-- A trimmed text does not begin with a blank. -/
theorem isBlank_head_trim {text : List Char} {c : Char} (h : (trim text).head? = some c) :
    isBlank c = false := by
  have hPrefix : trim text <+: text.dropWhile isBlank := by
    rw [trim, ← List.reverse_suffix, List.reverse_reverse]
    exact List.dropWhile_suffix isBlank
  obtain ⟨rest, hRest⟩ := hPrefix
  have hHead : (text.dropWhile isBlank).head? = some c := by
    rw [← hRest, List.head?_append, h, Option.some_or]
  exact isBlank_head_dropWhile hHead

/-- A text without blanks at its ends is trimmed already. -/
theorem trim_eq_self {text : List Char} (hHead : ∀ c ∈ text.head?, isBlank c = false)
    (hLast : ∀ c ∈ text.getLast?, isBlank c = false) : trim text = text := by
  have hDrop : ∀ {l : List Char}, (∀ c ∈ l.head?, isBlank c = false) →
      l.dropWhile isBlank = l := by
    intro l hl
    cases l with
    | nil => rfl
    | cons c l => exact List.dropWhile_cons_of_neg (by simp [hl c rfl])
  rw [trim, hDrop hHead, hDrop (by rwa [List.head?_reverse]), List.reverse_reverse]

end Text

/-! ## Arrows -/

namespace ProductionLine

def arrow : List Char := ['-', '>']

theorem isBlank_arrow : ∀ c ∈ arrow, Text.isBlank c = false := by
  rw [arrow, List.forall_mem_cons, List.forall_mem_singleton]
  decide

theorem splitArrow_append {front : List Char} (back : List Char) (h : ¬ arrow <:+: front) :
    splitArrow (front ++ arrow ++ back) = some (front, back) := by
  induction front with
  | nil => rfl
  | cons c front ih =>
    have hRest : splitArrow (front ++ arrow ++ back) = some (front, back) :=
      ih fun hInfix => h (hInfix.trans (List.suffix_cons c front).isInfix)
    -- An arrow at the very beginning would be one in `front`, as no arrow begins with its own end.
    have hHere : ∀ rest, c = '-' → front ++ arrow ++ back = '>' :: rest → False := by
      rintro rest rfl hNext
      cases front with
      | nil => cases hNext
      | cons d front =>
        obtain ⟨rfl, _⟩ := List.cons.inj hNext
        exact h ⟨[], front, rfl⟩
    rw [List.cons_append, List.cons_append, splitArrow.eq_2 c _ hHere, hRest]
    rfl

theorem splitArrow_eq_some {text front back : List Char}
    (h : splitArrow text = some (front, back)) :
    text = front ++ arrow ++ back ∧ ¬ arrow <:+: front := by
  fun_induction splitArrow text generalizing front with
  | case1 rest =>
    cases h
    exact ⟨rfl, by decide⟩
  | case2 c rest hHere ih =>
    obtain ⟨⟨front, _⟩, hRest, hEq⟩ := Option.map_eq_some_iff.mp h
    cases hEq
    obtain ⟨rfl, hFront⟩ := ih hRest
    refine ⟨rfl, fun hInfix => ?_⟩
    rcases List.infix_cons_iff.mp hInfix with ⟨tail, hTail⟩ | hInfix
    · obtain ⟨rfl, rfl⟩ := List.cons.inj hTail
      exact hHere _ rfl rfl
    · exact hFront hInfix
  | case3 => cases h

theorem splitArrow_eq_some_iff {text front back : List Char} :
    splitArrow text = some (front, back) ↔ text = front ++ arrow ++ back ∧ ¬ arrow <:+: front := by
  constructor
  · exact splitArrow_eq_some
  · rintro ⟨rfl, hFront⟩
    exact splitArrow_append back hFront

theorem splitArrow_eq_none_iff {text : List Char} : splitArrow text = none ↔ ¬ arrow <:+: text := by
  constructor
  · rintro hNone ⟨front, back, rfl⟩
    -- The arrow that is there need not be the first one, so the search is followed to its end.
    induction front with
    | nil => cases hNone
    | cons c front ih =>
      rw [List.cons_append, List.cons_append] at hNone
      unfold splitArrow at hNone
      split at hNone
      · cases hNone
      · next hCons =>
        cases hCons
        exact ih (Option.map_eq_none_iff.mp hNone)
      · next hCons => cases hCons
  · intro hInfix
    rcases hSplit : splitArrow text with _ | ⟨front, back⟩
    · rfl
    · obtain ⟨rfl, _⟩ := splitArrow_eq_some hSplit
      exact absurd ⟨front, back, rfl⟩ hInfix

end ProductionLine

end ShiftReduce
