import Mathlib.Data.List.Forall2
import ShiftReduce.Proofs.LineParts

/-!
# Which lines are production lines

What a production line is, apart from how it is read: `Spells` describes the texts that a
production line may be written as, character by character, and `Marks` says of each fault what a
text has that it is reported for.

* `read_eq_ok_iff`: exactly the texts that spell a production line are read, as that line.
* `exists_fault`: any other text is refused for a fault that it has.
* `readAll_eq_ok` and `readAll_eq_error`: lines are read in order, and the first that is neither
  left out nor a production line is reported with its number.
-/

namespace ShiftReduce

/-! ## Results in a row -/

section Rows

variable {ε α β : Type} {f : α → Except ε β} {l : List α}

theorem mapM_eq_ok_iff {results : List β} :
    l.mapM f = .ok results ↔ List.Forall₂ (fun a b => f a = .ok b) l results := by
  induction l generalizing results with
  | nil =>
    rw [List.mapM_nil, List.forall₂_nil_left_iff]
    exact ⟨fun h => (Except.ok.inj h).symm, fun h => h ▸ rfl⟩
  | cons a l ih =>
    rw [List.mapM_cons, List.forall₂_cons_left_iff]
    cases hf : f a with
    | error e => simp [bind, Except.bind]
    | ok b =>
      cases hl : l.mapM f with
      | error e =>
        have hNone : ∀ results, ¬ List.Forall₂ (fun a b => f a = .ok b) l results :=
          fun results h => by cases hl.symm.trans (ih.mpr h)
        simp [bind, Except.bind, hNone]
      | ok bs =>
        have hOnly : ∀ results, List.Forall₂ (fun a b => f a = .ok b) l results ↔ bs = results :=
          fun results => by rw [← ih, hl, Except.ok.injEq]
        simp [bind, Except.bind, pure, Except.pure, hOnly, eq_comm]

/-- The first failure is the result. -/
theorem mapM_eq_error {before after : List α} {a : α} {e : ε}
    (hBefore : ∀ b ∈ before, ∃ result, f b = .ok result) (ha : f a = .error e) :
    (before ++ a :: after).mapM f = .error e := by
  induction before with
  | nil =>
    rw [List.nil_append, List.mapM_cons, ha]
    rfl
  | cons b before ih =>
    rw [List.forall_mem_cons] at hBefore
    obtain ⟨result, hb⟩ := hBefore.1
    rw [List.cons_append, List.mapM_cons, hb, ih hBefore.2]
    rfl

theorem exists_of_mapM_eq_error {e : ε} (h : l.mapM f = .error e) : ∃ a ∈ l, f a = .error e := by
  induction l with
  | nil => cases h
  | cons a l ih =>
    rw [List.mapM_cons] at h
    cases hf : f a with
    | error e' =>
      rw [hf] at h
      cases h
      exact ⟨a, List.mem_cons_self, hf⟩
    | ok b =>
      cases hl : l.mapM f with
      | error e' =>
        rw [hf, hl] at h
        cases h
        obtain ⟨a', ha', hError⟩ := ih hl
        exact ⟨a', List.mem_cons_of_mem a ha', hError⟩
      | ok bs =>
        rw [hf, hl] at h
        cases h

/-- The first element that a property does not hold of. -/
theorem exists_first {P : α → Prop} (h : ∃ a ∈ l, ¬ P a) :
    ∃ before a after, l = before ++ a :: after ∧ (∀ b ∈ before, P b) ∧ ¬ P a := by
  induction l with
  | nil => simp at h
  | cons a l ih =>
    by_cases ha : P a
    · rw [List.exists_mem_cons_iff] at h
      obtain ⟨before, a', after, rfl, hBefore, ha'⟩ := ih (h.resolve_left (not_not.mpr ha))
      exact ⟨a :: before, a', after, rfl, List.forall_mem_cons.mpr ⟨ha, hBefore⟩, ha'⟩
    · exact ⟨[], a, l, rfl, by simp, ha⟩

end Rows

namespace ProductionLine

/-! ## What a production line is -/

/-- Whether a text consists of these words, set apart by blanks. -/
def Holds (names : List String) (text : List Char) : Prop :=
  Text.Separated (names.map String.toList) text ∧ ∀ name ∈ names, isWord name = true

/-- Texts divided by bars. -/
def bars (pieces : List (List Char)) : List Char := ['|'].intercalate pieces

/-- Whether a text has the given texts before and after the only arrow in it. -/
structure Divides (text front back : List Char) : Prop where
  eq : text = front ++ arrow ++ back
  front : ¬ arrow <:+: front
  back : ¬ arrow <:+: back

/-- Whether a text is an alternative with these symbols. -/
inductive SpellsAlternative : List String → List Char → Prop
  | epsilon {text : List Char} : Holds [epsilonName] text → SpellsAlternative [] text
  | symbols {names : List String} {text : List Char} :
    Holds names text → (∀ name ∈ names, isReservedName name = false) →
      SpellsAlternative names text

/-- Whether a text is a production line with this left-hand side and these alternatives. -/
structure SpellsParts (left : String) (alternatives : List (List String)) (text front : List Char)
    (pieces : List (List Char)) : Prop where
  divides : Divides text front (bars pieces)
  left_holds : Holds [left] front
  left_free : isReservedName left = false
  pieces_ne_nil : pieces ≠ []
  pieces_free : ∀ piece ∈ pieces, '|' ∉ piece
  alternatives : List.Forall₂ SpellsAlternative alternatives pieces

def Spells (line : ProductionLine) (text : List Char) : Prop :=
  ∃ front pieces, SpellsParts line.left line.alternatives text front pieces

/-- Whether a text has a fault. -/
inductive Marks (text : List Char) : LineFault → Prop
  | missingArrow : ¬ arrow <:+: text → Marks text .missingArrow
  | repeatedArrow {front back : List Char} :
    text = front ++ arrow ++ back → arrow <:+: back → Marks text .repeatedArrow
  | emptyLeft {front back : List Char} :
    Divides text front back → Holds [] front → Marks text .emptyLeft
  | severalLeft {front back : List Char} {first second : String} {others : List String} :
    Divides text front back → Holds (first :: second :: others) front → Marks text .severalLeft
  | reservedLeft {front back : List Char} {left : String} :
    Divides text front back → Holds [left] front → isReservedName left = true →
      Marks text .reservedLeft
  | epsilonAmongOthers {front piece : List Char} {pieces : List (List Char)}
      {names : List String} :
    Divides text front (bars pieces) → piece ∈ pieces → Holds names piece →
      epsilonName ∈ names → names ≠ [epsilonName] → Marks text .epsilonAmongOthers
  | endMarkerUsed {front piece : List Char} {pieces : List (List Char)} {names : List String} :
    Divides text front (bars pieces) → piece ∈ pieces → Holds names piece →
      endMarkerName ∈ names → Marks text .endMarkerUsed

/-! ## Words and alternatives -/

variable {text : List Char} {names : List String}

theorem forall_isWord_iff : (∀ word ∈ names.map String.toList,
    word ≠ [] ∧ ∀ c ∈ word, Text.isBlank c = false) ↔ ∀ name ∈ names, isWord name = true := by
  simp only [List.forall_mem_map, isWord_iff]

theorem names_eq_iff : ProductionLine.names text = names ↔ Holds names text := by
  have hWords : ProductionLine.names text = names ↔ Text.words text = names.map String.toList := by
    constructor
    · rintro rfl
      simp [ProductionLine.names]
    · intro h
      simp [ProductionLine.names, h]
  rw [hWords, Text.words_eq_iff, forall_isWord_iff, Holds]

theorem holds_names (text : List Char) : Holds (ProductionLine.names text) text :=
  names_eq_iff.mp rfl

theorem isReservedName_iff {name : String} :
    isReservedName name = true ↔ name = endMarkerName ∨ name = epsilonName := by
  simp [isReservedName]

theorem readLeft_eq_ok_iff {left : String} :
    readLeft text = .ok left ↔ Holds [left] text ∧ isReservedName left = false := by
  rw [← names_eq_iff, Bool.eq_false_iff, ne_eq, isReservedName_iff]
  unfold readLeft
  split
  · next h => simp [h]
  · next name h =>
    simp only [h, List.cons.injEq, and_true]
    split
    · next hReserved =>
      simp only [reduceCtorEq, false_iff, not_and]
      rintro rfl
      exact not_not.mpr hReserved
    · next hFree =>
      rw [Except.ok.injEq]
      exact ⟨fun h => ⟨h, h ▸ hFree⟩, fun h => h.1⟩
  · next h => simp [h]

theorem marks_of_readLeft {front back : List Char} {fault : LineFault}
    (hDivides : Divides text front back) (h : readLeft front = .error fault) :
    Marks text fault := by
  have hHolds := holds_names front
  unfold readLeft at h
  split at h
  · next hNone =>
    cases h
    exact .emptyLeft hDivides (hNone ▸ hHolds)
  · next name hOne =>
    split at h
    · next hReserved =>
      cases h
      exact .reservedLeft hDivides (hOne ▸ hHolds) (isReservedName_iff.mpr hReserved)
    · cases h
  · next first second others hSeveral =>
    cases h
    exact .severalLeft hDivides (hSeveral ▸ hHolds)

theorem readAlternative_eq_ok_iff {symbols : List String} :
    readAlternative text = .ok symbols ↔ SpellsAlternative symbols text := by
  have hHolds : ∀ {names}, Holds names text ↔ ProductionLine.names text = names :=
    fun {_} => names_eq_iff.symm
  constructor
  · intro h
    unfold readAlternative at h
    dsimp only at h
    split at h
    · next hEpsilon =>
      cases h
      exact .epsilon (hHolds.mpr hEpsilon)
    · split at h
      · cases h
      · next hNoEpsilon =>
        split at h
        · cases h
        · next hNoEnd =>
          cases h
          refine .symbols (holds_names text) fun name hName => ?_
          rw [Bool.eq_false_iff, ne_eq, isReservedName_iff]
          rintro (rfl | rfl)
          · exact hNoEnd hName
          · exact hNoEpsilon hName
  · rintro (⟨hEpsilon⟩ | ⟨hNames, hFree⟩)
    · unfold readAlternative
      rw [if_pos (hHolds.mp hEpsilon)]
    · have hNotIn : ∀ {name}, isReservedName name = true → name ∉ symbols := fun hReserved hName =>
        Bool.false_ne_true ((hFree _ hName).symm.trans hReserved)
      have hEpsilon : epsilonName ∉ symbols := hNotIn rfl
      have hNotAlone : symbols ≠ [epsilonName] := by
        rintro rfl
        exact hEpsilon List.mem_cons_self
      unfold readAlternative
      rw [hHolds.mp hNames, if_neg hNotAlone, if_neg hEpsilon, if_neg (hNotIn rfl)]

theorem marks_of_readAlternative {front piece : List Char} {pieces : List (List Char)}
    {fault : LineFault} (hDivides : Divides text front (bars pieces)) (hPiece : piece ∈ pieces)
    (h : readAlternative piece = .error fault) : Marks text fault := by
  unfold readAlternative at h
  dsimp only at h
  split at h
  · cases h
  · next hNotAlone =>
    split at h
    · next hEpsilon =>
      cases h
      exact .epsilonAmongOthers hDivides hPiece (holds_names piece) hEpsilon hNotAlone
    · split at h
      · next hEnd =>
        cases h
        exact .endMarkerUsed hDivides hPiece (holds_names piece) hEnd
      · cases h

/-! ## Lines -/

theorem divides_iff {front back : List Char} :
    Divides text front back ↔ splitArrow text = some (front, back) ∧ splitArrow back = none := by
  rw [splitArrow_eq_some_iff, splitArrow_eq_none_iff]
  exact ⟨fun h => ⟨⟨h.eq, h.front⟩, h.back⟩, fun h => ⟨h.1.1, h.1.2, h.2⟩⟩

theorem splitOn_bars {pieces : List (List Char)} (hNe : pieces ≠ [])
    (hFree : ∀ piece ∈ pieces, '|' ∉ piece) : (bars pieces).splitOn '|' = pieces :=
  List.splitOn_intercalate '|' hFree hNe

theorem bars_splitOn (back : List Char) : bars (back.splitOn '|') = back :=
  List.intercalate_splitOn '|'

theorem not_mem_of_mem_splitOn {back piece : List Char} (h : piece ∈ back.splitOn '|') :
    '|' ∉ piece := by
  induction back generalizing piece with
  | nil =>
    rw [List.splitOn_nil, List.mem_singleton] at h
    simp [h]
  | cons c back ih =>
    rw [List.splitOn_cons_eq_if_modifyHead] at h
    split at h
    · rcases List.mem_cons.mp h with rfl | h
      · simp
      · exact ih h
    · next hc =>
      cases hSplit : back.splitOn '|' with
      | nil => simp [hSplit] at h
      | cons first others =>
        rw [hSplit, List.modifyHead_cons] at h
        rw [hSplit, List.forall_mem_cons] at ih
        rcases List.mem_cons.mp h with rfl | h
        · rw [List.mem_cons, not_or]
          exact ⟨fun he => hc (beq_iff_eq.mpr he.symm), ih.1⟩
        · exact ih.2 _ h

/-- Exactly the texts that spell a production line are read. -/
theorem read_eq_ok_iff {number : Nat} {line : ProductionLine} :
    read number text = .ok line ↔ line.number = number ∧ line.Spells text := by
  constructor
  · intro h
    unfold read at h
    split at h
    · cases h
    · next front back hSplit =>
      split at h
      · cases h
      · next hBack =>
        rw [Bool.not_eq_true, Option.isSome_eq_false_iff, Option.isNone_iff_eq_none] at hBack
        have hDivides : Divides text front (bars (back.splitOn '|')) := by
          rw [bars_splitOn]
          exact divides_iff.mpr ⟨hSplit, hBack⟩
        cases hLeft : readLeft front with
        | error fault =>
          rw [hLeft] at h
          cases h
        | ok left =>
          cases hAlternatives : (back.splitOn '|').mapM readAlternative with
          | error fault =>
            rw [hLeft, hAlternatives] at h
            cases h
          | ok alternatives =>
            rw [hLeft, hAlternatives] at h
            cases h
            obtain ⟨hHolds, hFree⟩ := readLeft_eq_ok_iff.mp hLeft
            refine ⟨rfl, front, back.splitOn '|', hDivides, hHolds, hFree,
              List.splitOn_ne_nil '|' back, fun _ => not_mem_of_mem_splitOn, ?_⟩
            refine (mapM_eq_ok_iff.mp hAlternatives).flip.imp fun symbols piece hRead => ?_
            exact readAlternative_eq_ok_iff.mp hRead
  · rintro ⟨rfl, front, pieces, h⟩
    obtain ⟨hSplit, hBack⟩ := divides_iff.mp h.divides
    have hLeft : readLeft front = .ok line.left :=
      readLeft_eq_ok_iff.mpr ⟨h.left_holds, h.left_free⟩
    have hAlternatives : pieces.mapM readAlternative = .ok line.alternatives :=
      mapM_eq_ok_iff.mpr (h.alternatives.flip.imp fun _ _ => readAlternative_eq_ok_iff.mpr)
    unfold read
    rw [hSplit]
    dsimp only
    rw [hBack, splitOn_bars h.pieces_ne_nil h.pieces_free, hLeft, hAlternatives]
    rfl

/-- Any other text has the fault that it is refused for. -/
theorem marks_of_read {number : Nat} {fault : LineFault} (h : read number text = .error fault) :
    Marks text fault := by
  unfold read at h
  split at h
  · next hSplit =>
    cases h
    exact .missingArrow (splitArrow_eq_none_iff.mp hSplit)
  · next front back hSplit =>
    obtain ⟨hText, hFront⟩ := splitArrow_eq_some hSplit
    split at h
    · next hBack =>
      cases h
      refine .repeatedArrow hText (Decidable.byContradiction fun hInfix => ?_)
      rw [splitArrow_eq_none_iff.mpr hInfix] at hBack
      cases hBack
    · next hBack =>
      rw [Bool.not_eq_true, Option.isSome_eq_false_iff, Option.isNone_iff_eq_none] at hBack
      have hDivides : Divides text front back := divides_iff.mpr ⟨hSplit, hBack⟩
      cases hLeft : readLeft front with
      | error fault' =>
        rw [hLeft] at h
        cases h
        exact marks_of_readLeft hDivides hLeft
      | ok left =>
        cases hAlternatives : (back.splitOn '|').mapM readAlternative with
        | error fault' =>
          rw [hLeft, hAlternatives] at h
          cases h
          obtain ⟨piece, hPiece, hRead⟩ := exists_of_mapM_eq_error hAlternatives
          rw [← bars_splitOn back] at hDivides
          exact marks_of_readAlternative hDivides hPiece hRead
        | ok alternatives =>
          rw [hLeft, hAlternatives] at h
          cases h

/-- A text that spells no production line is refused. -/
theorem exists_fault (number : Nat) (h : ¬ ∃ line : ProductionLine, line.Spells text) :
    ∃ fault, read number text = .error fault ∧ Marks text fault := by
  cases hRead : read number text with
  | error fault => exact ⟨fault, rfl, marks_of_read hRead⟩
  | ok line => exact absurd ⟨line, (read_eq_ok_iff.mp hRead).2⟩ h

/-! ## Sources -/

/-- The lines of a source, without the blanks at their ends. -/
def sourceLines (source : String) : List (List Char) :=
  (Text.lines source.toList).map Text.trim

/-- Whether a line may stand in a source: it is blank, a comment or a production line. -/
def Admissible (text : List Char) : Prop :=
  isSkipped text = true ∨ ∃ line : ProductionLine, line.Spells text

/-- Whether these are the production lines of a source, with their numbers. -/
def SpelledBy (lines : List ProductionLine) (source : String) : Prop :=
  List.Forall₂ (fun line written => line.number = written.2 ∧ line.Spells written.1)
    lines (written source)

variable {source : String}

theorem written_eq : written source =
    ((sourceLines source).zipIdx 1).filter fun line => !isSkipped line.1 :=
  rfl

theorem exists_of_mem_written {entry : List Char × Nat} (h : entry ∈ written source) :
    entry.1 ∈ sourceLines source ∧ isSkipped entry.1 = false := by
  rw [written_eq, List.mem_filter, Bool.not_eq_true'] at h
  exact ⟨List.fst_mem_of_mem_zipIdx h.1, h.2⟩

theorem readAll_eq_ok_iff {lines : List ProductionLine} :
    readAll source = .ok lines ↔ SpelledBy lines source := by
  have hRead : ∀ (line : ProductionLine) (entry : List Char × Nat),
      (read entry.2 entry.1).mapError (fun fault => (⟨entry.2, String.ofList entry.1, fault⟩ :
        LineError)) = .ok line ↔ line.number = entry.2 ∧ line.Spells entry.1 := by
    intro line entry
    rw [← read_eq_ok_iff]
    cases read entry.2 entry.1 <;> simp [Except.mapError]
  unfold readAll SpelledBy
  rw [mapM_eq_ok_iff]
  exact ⟨fun h => h.flip.imp fun line entry => (hRead line entry).mp,
    fun h => h.flip.imp fun entry line => (hRead line entry).mpr⟩

theorem exists_spelledBy (h : ∀ text ∈ sourceLines source, Admissible text) :
    ∃ lines, SpelledBy lines source := by
  have hSpells : ∀ entry ∈ written source, ∃ line : ProductionLine,
      line.number = entry.2 ∧ line.Spells entry.1 := by
    intro entry hEntry
    obtain ⟨hMem, hWritten⟩ := exists_of_mem_written hEntry
    obtain ⟨line, hLine⟩ :=
      (h entry.1 hMem).resolve_left fun hSkipped => by rw [hSkipped] at hWritten; cases hWritten
    exact ⟨⟨entry.2, line.left, line.alternatives⟩, rfl, hLine⟩
  unfold SpelledBy
  generalize written source = entries at hSpells
  induction entries with
  | nil => exact ⟨[], .nil⟩
  | cons entry entries ih =>
    rw [List.forall_mem_cons] at hSpells
    obtain ⟨line, hLine⟩ := hSpells.1
    obtain ⟨lines, hLines⟩ := ih hSpells.2
    exact ⟨line :: lines, .cons hLine hLines⟩

/-- The first line that may not stand there is reported. -/
theorem readAll_eq_error {before after : List (List Char)} {text : List Char}
    (hLines : sourceLines source = before ++ text :: after)
    (hBefore : ∀ earlier ∈ before, Admissible earlier) (hText : ¬ Admissible text) :
    ∃ fault, Marks text fault ∧
      readAll source = .error ⟨before.length + 1, String.ofList text, fault⟩ := by
  rw [Admissible, not_or, Bool.not_eq_true] at hText
  obtain ⟨fault, hRead, hMarks⟩ := exists_fault (before.length + 1) hText.2
  refine ⟨fault, hMarks, ?_⟩
  have hWritten : written source =
      ((before.zipIdx 1).filter fun line => !isSkipped line.1) ++ (text, before.length + 1) ::
        ((after.zipIdx (1 + before.length + 1)).filter fun line => !isSkipped line.1) := by
    rw [written_eq, hLines, List.zipIdx_append, List.zipIdx_cons, List.filter_append,
      List.filter_cons_of_pos (by simpa using hText.1), Nat.add_comm 1]
  rw [readAll, hWritten]
  refine mapM_eq_error (fun entry hEntry => ?_) ?_
  · rw [List.mem_filter, Bool.not_eq_true'] at hEntry
    obtain ⟨line, hLine⟩ := (hBefore entry.1 (List.fst_mem_of_mem_zipIdx hEntry.1)).resolve_left
      fun hSkipped => by rw [hSkipped] at hEntry; cases hEntry.2
    have hOk : read entry.2 entry.1 = .ok ⟨entry.2, line.left, line.alternatives⟩ :=
      read_eq_ok_iff.mpr ⟨rfl, hLine⟩
    exact ⟨_, by rw [hOk]; rfl⟩
  · rw [hRead]
    rfl

end ProductionLine

end ShiftReduce
