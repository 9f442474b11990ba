import TinyTools.Lib.CString

/-!
# Words of a text that grows

The words that `strtok` finds one after another, and what becomes of them when bytes are added
behind the text. A word with a delimiter behind it stays; the last word grows, and the next one may
be found in what was added.
-/

namespace TinyTools.Lib

variable {delimiters : Bytes}

/-- The text from the delimiter behind the first word on. -/
def behindWord (delimiters text : Bytes) : Bytes :=
  (text.dropWhile (delimiters.contains ·)).dropWhile (!delimiters.contains ·)

/-- A word of a text, the first one at zero. -/
def nthWord (delimiters : Bytes) (n : ℕ) (text : Bytes) : Option Bytes :=
  (strtok delimiters ((behindWord delimiters)^[n] text)).map Prod.fst

/-- Each of the first words has a delimiter behind it. -/
def Delimited (delimiters : Bytes) (n : ℕ) (text : Bytes) : Prop :=
  (behindWord delimiters)^[n] text ≠ []

instance (n : ℕ) (text : Bytes) : Decidable (Delimited delimiters n text) :=
  inferInstanceAs (Decidable (_ ≠ _))

/-- What stands behind a word starts with a delimiter. -/
theorem behindWord_starts (text : Bytes) :
    ∀ byte ∈ (behindWord delimiters text).head?, delimiters.contains byte = true := by
  intro byte first
  have stop := List.head?_dropWhile_not (!delimiters.contains ·)
    (text.dropWhile (delimiters.contains ·))
  unfold behindWord at first
  rw [first] at stop
  simpa using stop

/-- The delimiter behind a word is skipped in front of the next one. -/
theorem strtok_tail {text : Bytes} (starts : ∀ byte ∈ text.head?, delimiters.contains byte = true) :
    strtok delimiters text.tail = strtok delimiters text := by
  cases text with
  | nil => rfl
  | cons byte rest =>
    unfold strtok
    rw [List.dropWhile_cons, if_pos (starts byte rfl), List.tail_cons]

/-- A call of `strtok` goes on behind the word. -/
theorem strtok_rest {text word rest : Bytes} (found : strtok delimiters text = some (word, rest)) :
    strtok delimiters rest = strtok delimiters (behindWord delimiters text) := by
  rw [← strtok_tail (behindWord_starts text), behindWord]
  unfold strtok at found
  split at found
  · cases found
  · obtain ⟨-, rfl⟩ := Prod.mk.inj (Option.some.inj found)
    rfl

/-- The word and the rest, where something is left behind the delimiters. -/
theorem strtok_start {text : Bytes} (start : text.dropWhile (delimiters.contains ·) ≠ []) :
    strtok delimiters text =
      some ((text.dropWhile (delimiters.contains ·)).takeWhile (!delimiters.contains ·),
        ((text.dropWhile (delimiters.contains ·)).dropWhile (!delimiters.contains ·)).tail) := by
  unfold strtok
  obtain ⟨first, others, shape⟩ := List.exists_cons_of_ne_nil start
  rw [shape]

/-- There is a word where a byte is no delimiter. -/
theorem strtok_isSome_iff {text : Bytes} :
    (strtok delimiters text).isSome = true ↔ text.dropWhile (delimiters.contains ·) ≠ [] := by
  unfold strtok
  split <;> rename_i start
  · exact iff_of_false (by decide) fun some_ => some_ start
  · exact iff_of_true rfl fun none => start none

/-- Behind a word there is one in front of it. -/
theorem strtok_behindWord {text : Bytes}
    (some_ : (strtok delimiters (behindWord delimiters text)).isSome = true) :
    (strtok delimiters text).isSome = true := by
  rw [strtok_isSome_iff] at some_ ⊢
  intro none
  unfold behindWord at some_
  rw [none] at some_
  exact some_ rfl

/-- The words of a text are found in it by calls of `strtok` in a row. -/
theorem nthWord_succ (n : ℕ) (text : Bytes) :
    nthWord delimiters (n + 1) text = nthWord delimiters n (behindWord delimiters text) := rfl

/-! ## A longer text -/

/-- A word with a delimiter behind it stays as the text grows. -/
theorem behindWord_append {text : Bytes} (ends : behindWord delimiters text ≠ []) (more : Bytes) :
    nthWord delimiters 0 (text ++ more) = nthWord delimiters 0 text ∧
      behindWord delimiters (text ++ more) = behindWord delimiters text ++ more := by
  have start : text.dropWhile (delimiters.contains ·) ≠ [] := by
    intro none
    unfold behindWord at ends
    rw [none] at ends
    exact ends rfl
  have front : (text ++ more).dropWhile (delimiters.contains ·) =
      text.dropWhile (delimiters.contains ·) ++ more := by
    rw [List.dropWhile_append, if_neg (by simpa [List.isEmpty_iff] using start)]
  have behind : behindWord delimiters (text ++ more) = behindWord delimiters text ++ more := by
    unfold behindWord at ends ⊢
    rw [front, List.dropWhile_append, if_neg (by rwa [List.isEmpty_iff])]
  refine ⟨?_, behind⟩
  have word : (text.dropWhile (delimiters.contains ·) ++ more).takeWhile
      (!delimiters.contains ·) =
        (text.dropWhile (delimiters.contains ·)).takeWhile (!delimiters.contains ·) := by
    have parts := List.takeWhile_append_dropWhile (p := (!delimiters.contains ·))
      (l := text.dropWhile (delimiters.contains ·))
    have whole := List.takeWhile_append_dropWhile (p := (!delimiters.contains ·))
      (l := text.dropWhile (delimiters.contains ·) ++ more)
    unfold behindWord at behind
    rw [front] at behind
    rw [behind, ← List.append_assoc] at whole
    have same := List.append_cancel_right whole
    exact List.append_cancel_right (same.trans parts.symm)
  have start' : (text ++ more).dropWhile (delimiters.contains ·) ≠ [] := by
    rw [front]
    exact List.append_ne_nil_of_left_ne_nil start more
  unfold nthWord
  rw [Function.iterate_zero, id_eq, id_eq, strtok_start start, strtok_start start', front]
  exact congrArg some word

/-- The first word grows with the text if nothing ends it. -/
theorem firstWord_grows {text word : Bytes} (ends : behindWord delimiters text = [])
    (found : nthWord delimiters 0 text = some word) (more : Bytes) :
    nthWord delimiters 0 (text ++ more) =
      some (word ++ more.takeWhile (!delimiters.contains ·)) := by
  unfold nthWord at found
  have start : text.dropWhile (delimiters.contains ·) ≠ [] := by
    rw [← strtok_isSome_iff, ← Option.isSome_map (f := Prod.fst)]
    exact Option.isSome_of_eq_some found
  have front : (text ++ more).dropWhile (delimiters.contains ·) =
      text.dropWhile (delimiters.contains ·) ++ more := by
    rw [List.dropWhile_append, if_neg (by simpa [List.isEmpty_iff] using start)]
  unfold behindWord at ends
  have all := List.dropWhile_eq_nil_iff.mp ends
  have word : word = text.dropWhile (delimiters.contains ·) := by
    rw [Function.iterate_zero, id_eq, strtok_start start] at found
    exact (Option.some.inj found).symm.trans (List.takeWhile_eq_self_iff.mpr all)
  have start' : (text ++ more).dropWhile (delimiters.contains ·) ≠ [] := by
    rw [front]
    exact List.append_ne_nil_of_left_ne_nil start more
  unfold nthWord
  rw [Function.iterate_zero, id_eq, strtok_start start', front, word,
    ← List.takeWhile_append_of_pos all]
  rfl

/-- Nothing stands behind a word of nothing. -/
theorem behindWord_nil (n : ℕ) : (behindWord delimiters)^[n] [] = [] := by
  induction n with
  | zero => rfl
  | succ n ih => exact ih

/-- Words with delimiters behind them stay, and what stands behind them grows. -/
theorem Delimited.append {n : ℕ} {text : Bytes} (ends : Delimited delimiters n text)
    (more : Bytes) :
    (behindWord delimiters)^[n] (text ++ more) = (behindWord delimiters)^[n] text ++ more ∧
      ∀ k < n, nthWord delimiters k (text ++ more) = nthWord delimiters k text := by
  induction n generalizing text with
  | zero => exact ⟨rfl, fun k less => absurd less (Nat.not_lt_zero k)⟩
  | succ n ih =>
    have first : behindWord delimiters text ≠ [] := by
      intro none
      unfold Delimited at ends
      rw [Function.iterate_succ_apply, none] at ends
      exact ends (behindWord_nil n)
    obtain ⟨word, behind⟩ := behindWord_append first more
    obtain ⟨later, words⟩ := ih ends
    rw [Function.iterate_succ_apply, Function.iterate_succ_apply, behind]
    refine ⟨later, fun k less => ?_⟩
    cases k with
    | zero => exact word
    | succ k =>
      rw [nthWord_succ, nthWord_succ, behind]
      exact words k (Nat.lt_of_succ_lt_succ less)

/-- The words in front of one that is found are ended. -/
theorem Delimited.of_nthWord {n : ℕ} {text word : Bytes}
    (found : nthWord delimiters n text = some word) : Delimited delimiters n text := by
  intro none
  unfold nthWord at found
  rw [none] at found
  cases found

/-- A word that nothing ends grows with the text, up to the first delimiter that is added. -/
theorem nthWord_grows {n : ℕ} {text word : Bytes} (found : nthWord delimiters n text = some word)
    (open_ : ¬ Delimited delimiters (n + 1) text) (more : Bytes) :
    nthWord delimiters n (text ++ more) =
      some (word ++ more.takeWhile (!delimiters.contains ·)) := by
  obtain ⟨behind, -⟩ := (Delimited.of_nthWord found).append more
  have ends : behindWord delimiters ((behindWord delimiters)^[n] text) = [] := by
    rw [← Function.iterate_succ_apply' (behindWord delimiters)]
    exact not_not.mp open_
  have last := firstWord_grows ends found more
  rw [← behind] at last
  exact last

/-- The first words of a text of which one is found are found. -/
theorem nthWord_isSome {n k : ℕ} {text : Bytes} (less : k ≤ n)
    (found : (nthWord delimiters n text).isSome = true) :
    (nthWord delimiters k text).isSome = true := by
  induction n with
  | zero => rwa [Nat.le_zero.mp less]
  | succ n ih =>
    cases Nat.lt_or_eq_of_le less with
    | inl before =>
      refine ih (Nat.le_of_lt_succ before) ?_
      unfold nthWord at found ⊢
      rw [Function.iterate_succ_apply', Option.isSome_map] at found
      rw [Option.isSome_map]
      exact strtok_behindWord found
    | inr same => rwa [same]

/-- A text can be continued so that it has any number of words. -/
theorem exists_nthWord {letter delimiter : UInt8} (word : delimiters.contains letter = false)
    (ends : delimiters.contains delimiter = true) (n : ℕ) (text : Bytes) :
    ∃ more : Bytes, (∀ byte ∈ more, byte = letter ∨ byte = delimiter) ∧
      (nthWord delimiters n (text ++ more)).isSome = true := by
  induction n generalizing text with
  | zero =>
    refine ⟨[letter], fun byte inside => Or.inl (List.mem_singleton.mp inside), ?_⟩
    unfold nthWord
    rw [Option.isSome_map, Function.iterate_zero, id_eq, strtok_isSome_iff]
    intro none
    have skipped := List.dropWhile_eq_nil_iff.mp none letter (by simp)
    rw [word] at skipped
    cases skipped
  | succ n ih =>
    by_cases first : behindWord delimiters text = []
    · -- the letter is or continues a word, and the delimiter ends it
      obtain ⟨more, only, found⟩ := ih [delimiter]
      refine ⟨letter :: delimiter :: more, ?_, ?_⟩
      · intro byte inside
        rcases List.mem_cons.mp inside with rfl | later
        · exact Or.inl rfl
        · exact (List.mem_cons.mp later).elim Or.inr (only byte)
      · have behind : behindWord delimiters (text ++ letter :: delimiter :: more) =
            [delimiter] ++ more := by
          unfold behindWord at first ⊢
          have all := List.dropWhile_eq_nil_iff.mp first
          rw [List.dropWhile_append]
          split
          · simp [ends, -List.contains_eq_mem, word]
          · rw [List.dropWhile_append_of_pos all]
            simp [ends, -List.contains_eq_mem, word]
        rw [nthWord_succ, behind]
        exact found
    · obtain ⟨more, only, found⟩ := ih (behindWord delimiters text)
      refine ⟨more, only, ?_⟩
      rw [nthWord_succ, (behindWord_append first more).2]
      exact found

/-! ## Words of an array -/

/-- What follows the string of an array ends it. -/
theorem cString_front {text tail : Bytes} (free : ∀ byte ∈ text, byte ≠ 0)
    (ends : ∀ byte ∈ tail.head?, byte = 0) : cString (text ++ tail) = text := by
  have all : ∀ byte ∈ text, (byte != 0) = true := by
    intro byte inside
    simpa using free byte inside
  rw [cString, List.takeWhile_append_of_pos all]
  cases tail with
  | nil => exact List.append_nil text
  | cons byte rest =>
    rw [ends byte rfl, List.takeWhile_cons, if_neg (by decide), List.append_nil]

/-- An array holds its string and what ends it. -/
theorem exists_tail (buffer : Bytes) :
    ∃ tail, buffer = cString buffer ++ tail ∧ ∀ byte ∈ tail.head?, byte = 0 := by
  refine ⟨buffer.dropWhile (· != 0), List.takeWhile_append_dropWhile.symm, ?_⟩
  intro byte first
  have stop := List.head?_dropWhile_not (· != 0) buffer
  rw [first] at stop
  simpa using stop

/-- A token that reaches the end of the string, and nothing behind it. -/
theorem cString_lastToken {memory token tail : Bytes} {place : ℕ}
    (here : memory.drop place = token ++ tail) (free : ∀ byte ∈ token, byte ≠ 0)
    (ends : ∀ byte ∈ tail.head?, byte = 0) :
    cString (memory.drop place) = token ∧ cString (memory.drop (place + token.length)) = [] := by
  constructor
  · rw [here]
    exact cString_front free ends
  · have behind : memory.drop (place + token.length) = [] ++ tail := by
      rw [← List.drop_drop, here, List.drop_left]
      rfl
    rw [behind]
    exact cString_front (by simp) ends

/-- A token behind which the delimiter is overwritten, and the string behind the delimiter. -/
theorem cString_cutToken {memory token more tail : Bytes} {delimiter : UInt8} {place : ℕ}
    (here : memory.drop place = token ++ delimiter :: (more ++ tail))
    (free : ∀ byte ∈ token, byte ≠ 0) (moreFree : ∀ byte ∈ more, byte ≠ 0)
    (ends : ∀ byte ∈ tail.head?, byte = 0) :
    cString ((memory.set (place + token.length) 0).drop place) = token ∧
      cString ((memory.set (place + token.length) 0).drop (place + token.length + 1)) = more := by
  constructor
  · have word : (memory.set (place + token.length) 0).drop place =
        token ++ 0 :: (more ++ tail) := by
      rw [List.drop_set, if_neg (by omega), here, Nat.add_sub_cancel_left,
        List.set_append_right _ _ le_rfl, Nat.sub_self]
      rfl
    rw [word]
    exact cString_terminated free _
  · have rest : (memory.set (place + token.length) 0).drop (place + token.length + 1) =
        more ++ tail := by
      rw [List.drop_set, if_pos (by omega), Nat.add_assoc, ← List.drop_drop, here,
        ← List.drop_drop, List.drop_left]
      rfl
    rw [rest]
    exact cString_front moreFree ends

/-- `strtok_r` on an array finds the words that `strtok` finds in the string, and leaves the same
rest. -/
theorem strtokAt_eq (memory : Bytes) (position : ℕ) :
    (strtokAt delimiters memory position).map (fun found =>
      (cString (found.memory.drop found.start), cString (found.memory.drop found.next))) =
        strtok delimiters (cString (memory.drop position)) := by
  have free := cString_free (memory.drop position)
  obtain ⟨tail, split, ends⟩ := exists_tail (memory.drop position)
  unfold strtokAt
  dsimp only
  generalize cString (memory.drop position) = text at free split
  by_cases some_ : text.dropWhile (delimiters.contains ·) = []
  · rw [if_pos some_]
    unfold strtok
    rw [some_]
    rfl
  rw [if_neg some_, strtok_start some_]
  have parts := List.takeWhile_append_dropWhile (p := (delimiters.contains ·)) (l := text)
  generalize text.takeWhile (delimiters.contains ·) = lead at parts
  generalize text.dropWhile (delimiters.contains ·) = start at parts
  have place : text.length - start.length = lead.length := by
    rw [← parts, List.length_append]
    omega
  have behind : memory.drop (position + lead.length) = start ++ tail := by
    rw [← List.drop_drop, split, ← parts, List.append_assoc, List.drop_left]
  have startFree : ∀ byte ∈ start, byte ≠ 0 := by
    intro byte inside
    exact free byte (parts ▸ List.mem_append_right lead inside)
  rw [place]
  have cut := List.takeWhile_append_dropWhile (p := (!delimiters.contains ·)) (l := start)
  generalize start.takeWhile (!delimiters.contains ·) = token at cut
  generalize start.dropWhile (!delimiters.contains ·) = stop at cut
  subst cut
  have tokenFree : ∀ byte ∈ token, byte ≠ 0 := fun byte inside =>
    startFree byte (List.mem_append_left stop inside)
  cases stop with
  | nil =>
    rw [List.append_nil] at behind ⊢
    obtain ⟨word, rest⟩ := cString_lastToken behind tokenFree ends
    rw [if_pos rfl]
    simp only [Option.map_some, word, rest, List.tail_nil]
  | cons delimiter more =>
    have longer : token.length ≠ (token ++ delimiter :: more).length := by
      rw [List.length_append, List.length_cons]
      omega
    have moreFree : ∀ byte ∈ more, byte ≠ 0 := fun byte inside =>
      startFree byte (List.mem_append_right token (List.mem_cons_of_mem _ inside))
    rw [List.append_assoc, List.cons_append] at behind
    obtain ⟨word, rest⟩ := cString_cutToken behind tokenFree moreFree ends
    rw [if_neg longer]
    simp only [Option.map_some, word, rest, List.tail_cons]

/-- An array whose first token `strtok_r` cuts off. -/
def afterToken (delimiters memory : Bytes) : Bytes :=
  ((strtokAt delimiters memory 0).map TokenAt.memory).getD memory

/-- A text up to the delimiter behind its first token. -/
def cutToken (delimiters text : Bytes) : Bytes :=
  text.takeWhile (delimiters.contains ·) ++
    (text.dropWhile (delimiters.contains ·)).takeWhile (!delimiters.contains ·)

/-- A NUL inside the string of an array ends it there. -/
theorem cString_set {memory : Bytes} {place : ℕ} (inside : place ≤ (cString memory).length)
    (room : place < memory.length) :
    cString (memory.set place 0) = (cString memory).take place := by
  obtain ⟨tail, split, -⟩ := exists_tail memory
  have front : memory.take place = (cString memory).take place := by
    conv_lhs => rw [split]
    exact List.take_append_of_le_length inside
  have free : ∀ byte ∈ (cString memory).take place, byte ≠ 0 := fun byte cut =>
    cString_free memory byte (List.mem_of_mem_take cut)
  rw [List.set_eq_take_append_cons_drop, if_pos room, front]
  exact cString_terminated free _

/-- The string of an array whose first token was cut off ends behind the token. -/
theorem cString_afterToken (delimiters memory : Bytes) :
    cString (afterToken delimiters memory) = cutToken delimiters (cString memory) := by
  have parts := List.takeWhile_append_dropWhile (p := (delimiters.contains ·)) (l := cString memory)
  have short : (cString memory).length ≤ memory.length := (List.takeWhile_sublist _).length_le
  unfold afterToken strtokAt cutToken
  rw [List.drop_zero]
  dsimp only
  generalize (cString memory).takeWhile (delimiters.contains ·) = lead at parts ⊢
  generalize (cString memory).dropWhile (delimiters.contains ·) = start at parts ⊢
  by_cases none : start = []
  · have whole : lead = cString memory := by rw [← parts, none, List.append_nil]
    rw [if_pos none, none, List.takeWhile_nil, whole, List.append_nil]
    rfl
  rw [if_neg none]
  have cut := List.takeWhile_append_dropWhile (p := (!delimiters.contains ·)) (l := start)
  generalize start.takeWhile (!delimiters.contains ·) = token at cut ⊢
  generalize start.dropWhile (!delimiters.contains ·) = stop at cut
  have lengths : (cString memory).length = lead.length + (token.length + stop.length) := by
    rw [← parts, ← cut, List.length_append, List.length_append]
  have startLength : start.length = token.length + stop.length := by
    rw [← cut, List.length_append]
  by_cases last : token.length = start.length
  · have whole : token = start := by
      have nothing : stop = [] := List.eq_nil_of_length_eq_zero (by omega)
      rw [← cut, nothing, List.append_nil]
    rw [if_pos last, whole]
    exact parts.symm
  · have place : 0 + ((cString memory).length - start.length) + token.length =
        (lead ++ token).length := by
      rw [List.length_append]
      omega
    have before : (lead ++ token).length ≤ (cString memory).length := by
      rw [List.length_append]
      omega
    rw [if_neg last, place]
    change cString (memory.set (lead ++ token).length 0) = _
    rw [cString_set before (by rw [List.length_append] at before ⊢; omega)]
    rw [← parts, ← cut, ← List.append_assoc, List.take_left]

end TinyTools.Lib
