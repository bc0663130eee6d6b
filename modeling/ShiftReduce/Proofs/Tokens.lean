import ShiftReduce.Item.Valid
import ShiftReduce.Parsing

/-!
# Tokens of texts

What a text is read as. No token stands for the end marker, and a token that
stands for a terminal stands for one that was declared. In the other direction, a
text in which the names of terminals are set apart by blanks is read as these
terminals (`standFor_tokenize`): the names are words, and different terminals have
different names.
-/

namespace ShiftReduce

/-! ## Separated words -/

namespace Text

/-- A text consists of words with at least one blank between any two of them, and
any number of blanks before the first and after the last one. -/
inductive Separated : List (List Char) → List Char → Prop
  | nil : Separated [] []
  | last (word : List Char) : Separated [word] word
  | blank {c : Char} {words : List (List Char)} {text : List Char} :
      isBlank c = true → Separated words text → Separated words (c :: text)
  | word (word : List Char) {c : Char} {words : List (List Char)} {text : List Char} :
      isBlank c = true → Separated words text → Separated (word :: words) (word ++ c :: text)

/-- The words before and after a blank. -/
theorem words_append_cons {c : Char} (hBlank : isBlank c = true) (front back : List Char) :
    words (front ++ c :: back) = words front ++ words back := by
  unfold words
  rw [List.splitOnP_append_cons front back hBlank, List.filter_append]

theorem words_eq_singleton {word : List Char} (hNonempty : word ≠ [])
    (hWord : ∀ c ∈ word, isBlank c = false) : words word = [word] := by
  unfold words
  rw [List.splitOnP_eq_singleton hWord]
  cases word with
  | nil => exact absurd rfl hNonempty
  | cons c rest => rfl

/-- The words of a text are those that it consists of. -/
theorem words_of_separated {words : List (List Char)} {text : List Char}
    (h : Separated words text)
    (hWords : ∀ word ∈ words, word ≠ [] ∧ ∀ c ∈ word, isBlank c = false) :
    Text.words text = words := by
  induction h with
  | nil => rfl
  | last word =>
    obtain ⟨hNonempty, hWord⟩ := hWords word (List.mem_singleton.mpr rfl)
    exact words_eq_singleton hNonempty hWord
  | blank hBlank _ ih => exact (words_append_cons hBlank [] _).trans (ih hWords)
  | word word hBlank _ ih =>
    rw [List.forall_mem_cons] at hWords
    obtain ⟨⟨hNonempty, hWord⟩, hWords⟩ := hWords
    rw [words_append_cons hBlank, words_eq_singleton hNonempty hWord, ih hWords]
    rfl

end Text

/-! ## Names of terminals -/

theorem isWord_iff {name : String} :
    isWord name = true ↔ name.toList ≠ [] ∧ ∀ c ∈ name.toList, Text.isBlank c = false := by
  unfold isWord
  rw [Bool.and_eq_true, Bool.not_eq_true', Bool.not_eq_true', List.any_eq_false,
    String.isEmpty_eq_false_iff, ne_eq, ne_eq, String.toList_eq_nil_iff]
  simp only [Bool.not_eq_true]

namespace Grammar

variable {g : Grammar} {name : String} {t : Terminal}

theorem declared_of_terminalNamed? (h : g.terminalNamed? name = some t) :
    (Symbol.terminal t).Declared g.terminals.size g.nonterminals.size := by
  unfold terminalNamed? at h
  split at h
  · next u hu =>
    obtain ⟨hu, _⟩ := Array.findIdx?_eq_some_iff_getElem.mp hu
    split at h
    · cases h
    · next hNe =>
      cases h
      exact ⟨Nat.pos_of_ne_zero hNe, hu⟩
  · cases h

theorem findIdx?_eq_some_iff_of_nodup {names : Array String} (hNodup : names.toList.Nodup)
    {name : String} {i : Nat} : names.findIdx? (· == name) = some i ↔ names[i]? = some name := by
  rw [Array.findIdx?_eq_some_iff_getElem, Array.getElem?_eq_some_iff]
  constructor
  · rintro ⟨hi, hName, _⟩
    exact ⟨hi, beq_iff_eq.mp hName⟩
  · rintro ⟨hi, hName⟩
    refine ⟨hi, beq_iff_eq.mpr hName, fun j hj hEq => ?_⟩
    have hSame : names.toList[j]? = names.toList[i]? := by
      rw [Array.getElem?_toList, Array.getElem?_toList, Array.getElem?_eq_getElem hi, hName,
        Array.getElem?_eq_getElem (Nat.lt_trans hj hi), beq_iff_eq.mp hEq]
    exact Nat.ne_of_lt hj ((List.getElem?_inj (Nat.lt_trans hj hi) hNodup).mp hSame)

theorem terminalNamed?_of_getElem? (ht : g.terminals[t]? = some name) (h0 : 0 < t) :
    g.terminalNamed? name = some t := by
  have hNodup : g.terminals.toList.Nodup := (List.nodup_append.mp g.names_distinct).1
  have hFind : g.terminals.findIdx? (· == name) = some t :=
    (findIdx?_eq_some_iff_of_nodup hNodup).mpr ht
  unfold terminalNamed?
  rw [hFind]
  exact if_neg (Nat.ne_of_gt h0)

theorem isWord_of_getElem? (ht : g.terminals[t]? = some name) (h0 : 0 < t) :
    name.toList ≠ [] ∧ ∀ c ∈ name.toList, Text.isBlank c = false := by
  have hTail : g.terminals.toList.tail[t - 1]? = some name := by
    rw [List.getElem?_tail, Nat.sub_add_cancel h0, Array.getElem?_toList, ht]
  have hMem := List.mem_append_left g.nonterminals.toList.tail (List.mem_of_getElem? hTail)
  obtain ⟨hWord, _⟩ := g.names_usable name hMem
  exact isWord_iff.mp hWord

end Grammar

/-! ## Tokens -/

variable {g : Grammar} {input : String} {tokens : List InputToken} {w : List Terminal}

/-- The terminal that the next token stands for, which is the end marker after
the last one. -/
def lookahead? : List InputToken → Option Terminal
  | [] => some endMarker
  | token :: _ => token.terminal?

def NoEndMarker (tokens : List InputToken) : Prop :=
  ∀ token ∈ tokens, token.terminal? ≠ some endMarker

def StandFor (tokens : List InputToken) (w : List Terminal) : Prop :=
  tokens.map InputToken.terminal? = w.map some

theorem declared_of_tokenize {token : InputToken} {t : Terminal}
    (hToken : token ∈ g.tokenize input) (ht : token.terminal? = some t) :
    (Symbol.terminal t).Declared g.terminals.size g.nonterminals.size := by
  obtain ⟨word, _, rfl⟩ := List.mem_map.mp hToken
  exact Grammar.declared_of_terminalNamed? ht

theorem noEndMarker_tokenize (g : Grammar) (input : String) : NoEndMarker (g.tokenize input) := by
  intro token hToken hEnd
  exact Nat.lt_irrefl 0 (declared_of_tokenize hToken hEnd).1

theorem NoEndMarker.tail {token : InputToken} (h : NoEndMarker (token :: tokens)) :
    NoEndMarker tokens :=
  fun token hToken => h token (List.mem_cons_of_mem _ hToken)

theorem NoEndMarker.eq_nil (h : NoEndMarker tokens) (hLookahead : lookahead? tokens = some endMarker) :
    tokens = [] := by
  cases tokens with
  | nil => rfl
  | cons token rest => exact absurd hLookahead (h token List.mem_cons_self)

theorem StandFor.lookahead? (h : StandFor tokens w) :
    lookahead? tokens = some (nextTerminal w) := by
  cases tokens with
  | nil =>
    cases w with
    | nil => rfl
    | cons t w => cases h
  | cons token rest =>
    cases w with
    | nil => cases h
    | cons t w => exact (List.cons.inj h).1

theorem terminalNamed?_names {names : List String}
    (hNames : w.map (fun t => g.terminals[t]?) = names.map some) (hDeclared : ∀ t ∈ w, 0 < t) :
    names.map g.terminalNamed? = w.map some := by
  induction w generalizing names with
  | nil =>
    cases names with
    | nil => rfl
    | cons name names => cases hNames
  | cons t w ih =>
    cases names with
    | nil => cases hNames
    | cons name names =>
      obtain ⟨hName, hNames⟩ := List.cons.inj hNames
      rw [List.forall_mem_cons] at hDeclared
      rw [List.map_cons, List.map_cons, ih hNames hDeclared.2,
        Grammar.terminalNamed?_of_getElem? hName hDeclared.1]

/-- The names of terminals, set apart by blanks, are read as these terminals. -/
theorem standFor_tokenize {names : List String}
    (hNames : w.map (fun t => g.terminals[t]?) = names.map some) (hDeclared : ∀ t ∈ w, 0 < t)
    (hText : Text.Separated (names.map String.toList) input.toList) :
    StandFor (g.tokenize input) w := by
  have hWords : Text.words input.toList = names.map String.toList := by
    apply Text.words_of_separated hText
    intro word hWord
    obtain ⟨name, hName, rfl⟩ := List.mem_map.mp hWord
    have hMem : some name ∈ w.map fun t => g.terminals[t]? := by
      rw [hNames]
      exact List.mem_map_of_mem hName
    obtain ⟨t, ht, hEq⟩ := List.mem_map.mp hMem
    exact Grammar.isWord_of_getElem? hEq (hDeclared t ht)
  unfold StandFor Grammar.tokenize
  rw [hWords, List.map_map, List.map_map, ← terminalNamed?_names hNames hDeclared]
  refine List.map_congr_left fun name _ => ?_
  exact congrArg g.terminalNamed? String.ofList_toList

end ShiftReduce
